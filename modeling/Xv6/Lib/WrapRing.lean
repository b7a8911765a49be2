import Mathlib.Data.Nat.ModEq
import Mathlib.Logic.Function.Basic

/-! # A ring buffer with wrapping counters

The number of items ever put in and the number ever taken out are kept modulo `wrap`, and
an item lives in the cell of its number modulo `size`. Where `size` divides `wrap` and is
smaller, the counters tell an empty ring from a full one and every cell from every other
occupied one, however often they wrap.
-/

namespace Xv6.Lib.WrapRing

variable {α : Type _} {size wrap : Nat}

/-- The ring holds what was put in, `all`, less the first `taken` items. -/
structure Holds (size wrap : Nat) (data : Nat → α) (r w : Nat) (all : List α) (taken : Nat) :
    Prop where
  reads : r = taken % wrap
  writes : w = all.length % wrap
  taken_le : taken ≤ all.length
  fits : all.length - taken ≤ size
  cells : ∀ k, taken ≤ k → ∀ x, all[k]? = some x → data (k % size) = x

variable {data : Nat → α} {r w taken : Nat} {all : List α}

theorem Holds.start (size : Nat) {wrap : Nat} (data : Nat → α) : Holds size wrap data 0 0 [] 0 where
  reads := (Nat.zero_mod wrap).symm
  writes := (Nat.zero_mod wrap).symm
  taken_le := Nat.le_refl 0
  fits := Nat.zero_le size
  cells := fun _ _ _ h => by cases h

theorem mod_eq_iff_of_lt {a b : Nat} (hle : a ≤ b) (hlt : b - a < wrap) :
    a % wrap = b % wrap ↔ a = b := by
  constructor
  · intro h
    have hdvd : wrap ∣ b - a := (Nat.modEq_iff_dvd' hle).mp h
    have hzero := Nat.eq_zero_of_dvd_of_lt hdvd hlt
    omega
  · rintro rfl
    rfl

/-- Two numbers less than `wrap` apart, from their remainders. -/
theorem distance {a b : Nat} (hle : a ≤ b) (hlt : b - a < wrap) :
    (b % wrap + wrap - a % wrap) % wrap = b - a := by
  have ha : a % wrap < wrap := Nat.mod_lt _ (by omega)
  have hsum : (b % wrap + wrap - a % wrap + a % wrap) % wrap = (b - a + a % wrap) % wrap := by
    rw [Nat.sub_add_cancel (by omega), Nat.add_mod_right, Nat.add_mod_mod, Nat.sub_add_cancel hle,
      Nat.mod_mod]
  have hmod : (b % wrap + wrap - a % wrap) % wrap = (b - a) % wrap :=
    Nat.ModEq.add_right_cancel' _ hsum
  rw [hmod]
  exact Nat.mod_eq_of_lt hlt

/-- The cells from the item `i` up to the item `j`, by their counters. -/
def segment (size wrap : Nat) (data : Nat → α) (i j : Nat) : List α :=
  (List.range ((j + wrap - i) % wrap)).map fun k => data ((i + k) % size)

section

variable (h : Holds size wrap data r w all taken)

include h

theorem Holds.empty_iff (hlt : size < wrap) : r = w ↔ taken = all.length := by
  rw [h.reads, h.writes]
  exact mod_eq_iff_of_lt h.taken_le (Nat.lt_of_le_of_lt h.fits hlt)

theorem Holds.full_iff (hlt : size < wrap) : w = (r + size) % wrap ↔ all.length - taken = size := by
  have hle := h.taken_le
  have hfits := h.fits
  rw [h.reads, h.writes, Nat.mod_add_mod,
    mod_eq_iff_of_lt (by omega : all.length ≤ taken + size) (by omega)]
  omega

theorem Holds.used (hlt : size < wrap) : (w + wrap - r) % wrap = all.length - taken := by
  rw [h.reads, h.writes]
  exact distance h.taken_le (Nat.lt_of_le_of_lt h.fits hlt)

theorem Holds.cell (hdvd : size ∣ wrap) {k : Nat} {x : α} (hx : all[taken + k]? = some x) :
    data ((r + k) % size) = x := by
  have hmod : (r + k) % size = (taken + k) % size := by
    rw [h.reads, ← Nat.mod_add_mod, Nat.mod_mod_of_dvd _ hdvd, Nat.mod_add_mod]
  rw [hmod]
  exact h.cells _ (Nat.le_add_right taken k) x hx

theorem Holds.put (hdvd : size ∣ wrap) (hroom : all.length - taken < size) (x : α) :
    Holds size wrap (Function.update data (w % size) x) r ((w + 1) % wrap) (all ++ [x]) taken where
  reads := h.reads
  writes := by
    rw [h.writes, Nat.mod_add_mod, List.length_append]
    rfl
  taken_le := by
    have := h.taken_le
    rw [List.length_append]
    omega
  fits := by
    rw [List.length_append, List.length_singleton]
    omega
  cells := fun k hk y hy => by
    have hcell : w % size = all.length % size := by
      rw [h.writes, Nat.mod_mod_of_dvd _ hdvd]
    rw [hcell]
    rcases Nat.lt_or_ge k all.length with hlt | hge
    · rw [List.getElem?_append_left hlt] at hy
      rw [Function.update_of_ne, h.cells k hk y hy]
      intro hsame
      have := (mod_eq_iff_of_lt (Nat.le_of_lt hlt) (by omega)).mp hsame
      omega
    · have hlast : k = all.length := by
        obtain ⟨hbound, -⟩ := List.getElem?_eq_some_iff.mp hy
        rw [List.length_append, List.length_singleton] at hbound
        omega
      subst hlast
      rw [List.getElem?_concat_length, Option.some.injEq] at hy
      rw [Function.update_self, hy]

theorem Holds.take (hdvd : size ∣ wrap) (hthere : taken < all.length) :
    all[taken]? = some (data (r % size)) ∧ Holds size wrap data ((r + 1) % wrap) w all (taken + 1) := by
  have hcell : r % size = taken % size := by rw [h.reads, Nat.mod_mod_of_dvd _ hdvd]
  refine ⟨?_, ?_, h.writes, hthere, ?_, fun k hk => h.cells k (by omega)⟩
  · have hget := List.getElem?_eq_getElem hthere
    rw [hget, hcell, h.cells taken (Nat.le_refl _) _ hget]
  · rw [h.reads, Nat.mod_add_mod]
  · have := h.fits
    omega

theorem Holds.segment_eq (hdvd : size ∣ wrap) (hlt : size < wrap) {i j : Nat} (hi : taken ≤ i) (hij : i ≤ j)
    (hj : j ≤ all.length) : segment size wrap data (i % wrap) (j % wrap) = (all.take j).drop i := by
  have hfits := h.fits
  unfold segment
  rw [distance hij (by omega)]
  refine List.ext_getElem (by simp; omega) fun k hk hk' => ?_
  have hlt : i + k < all.length := by
    simp only [List.length_map, List.length_range] at hk
    omega
  have hmod : (i % wrap + k) % size = (i + k) % size := by
    rw [← Nat.mod_add_mod, Nat.mod_mod_of_dvd _ hdvd, Nat.mod_add_mod]
  simp only [List.getElem_map, List.getElem_range, List.getElem_drop, List.getElem_take, hmod]
  exact h.cells (i + k) (by omega) _ (List.getElem?_eq_getElem hlt)

end

theorem Holds.unput {x : α} (h : Holds size wrap data r w (all ++ [x]) taken) (hwrap : 0 < wrap)
    (hle : taken ≤ all.length) : Holds size wrap data r ((w + wrap - 1) % wrap) all taken where
  reads := h.reads
  writes := by
    rw [h.writes, Nat.add_sub_assoc hwrap, Nat.mod_add_mod, List.length_append, List.length_singleton,
      Nat.add_assoc, Nat.add_sub_cancel' hwrap, Nat.add_mod_right]
  taken_le := hle
  fits := by
    have := h.fits
    rw [List.length_append] at this
    omega
  cells := fun k hk y hy => h.cells k hk y (by
    rw [List.getElem?_append_left (List.getElem?_eq_some_iff.mp hy).1]
    exact hy)

end Xv6.Lib.WrapRing
