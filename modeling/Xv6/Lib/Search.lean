import Mathlib.Data.Fintype.Card

/-! # Searching for a free value

A loop over a table stops at the lowest index that matches. A loop that goes from a value to the
next until it meets one that is not taken needs one round more than there are owners, if the
values do not repeat too soon.
-/

namespace Xv6.Lib

/-! ## Tables -/

theorem find?_finRange_eq_some {n : Nat} {p : Fin n → Bool} {i : Fin n} :
    (List.finRange n).find? p = some i ↔ p i = true ∧ ∀ j, j < i → p j = false := by
  rw [List.find?_eq_some_iff_getElem]
  constructor
  · rintro ⟨hp, j, hj, hij, hbefore⟩
    rw [List.getElem_finRange] at hij
    subst hij
    refine ⟨hp, fun l hl => ?_⟩
    have := hbefore l hl
    rw [List.getElem_finRange] at this
    simpa using this
  · rintro ⟨hp, hbefore⟩
    refine ⟨hp, i, by simp, by simp, fun j hj => ?_⟩
    rw [List.getElem_finRange, hbefore _ hj]
    rfl

theorem find?_finRange_eq_none {n : Nat} {p : Fin n → Bool} :
    (List.finRange n).find? p = none ↔ ∀ i, p i = false := by
  simp only [List.find?_eq_none, List.mem_finRange, true_implies, Bool.not_eq_true]

theorem find?_finRange_mono {n : Nat} {p q : Fin n → Bool} (h : ∀ j, q j = true → p j = true) {o : Option (Fin n)}
    (hfind : (List.finRange n).find? p = o) (hstill : ∀ i, o = some i → q i = true) :
    (List.finRange n).find? q = o := by
  have hfalse : ∀ j, p j = false → q j = false := fun j hj =>
    Bool.eq_false_iff.mpr fun hc => Bool.eq_false_iff.mp hj (h j hc)
  cases o with
  | none => exact find?_finRange_eq_none.mpr fun j => hfalse j (find?_finRange_eq_none.mp hfind j)
  | some i =>
    exact find?_finRange_eq_some.mpr ⟨hstill i rfl, fun j hj => hfalse j ((find?_finRange_eq_some.mp hfind).2 j hj)⟩

/-- A loop that replaces the first entry `old` by `new`. -/
def replaceFirst {n : Nat} (old new : Int) (a : Fin n → Int) : Fin n → Int :=
  match (List.finRange n).find? fun i => a i == old with
  | some i => Function.update a i new
  | none => a

theorem replaceFirst_after {n : Nat} {old new : Int} {a : Fin n → Int} {i j : Fin n} (hi : a i = old)
    (hij : i < j) : replaceFirst old new a j = a j := by
  unfold replaceFirst
  cases hfind : (List.finRange n).find? fun i => a i == old with
  | none => rfl
  | some l =>
    refine Function.update_of_ne ?_ ..
    rintro rfl
    have hfirst := (find?_finRange_eq_some.mp hfind).2 i hij
    simp [hi] at hfirst

/-! ## Successors -/

variable {α : Type _}

def firstFree (next : α → α) (taken : α → Bool) : Nat → α → Option α
  | 0, _ => none
  | n + 1, x => if taken x then firstFree next taken n (next x) else some x

theorem firstFree_none {next : α → α} {taken : α → Bool} {n : Nat} {x : α}
    (h : firstFree next taken n x = none) : ∀ i < n, taken (next^[i] x) = true := by
  induction n generalizing x with
  | zero => nofun
  | succ n ih =>
    unfold firstFree at h
    split at h
    · rename_i htaken
      intro i hi
      cases i with
      | zero => exact htaken
      | succ i => exact ih h i (Nat.lt_of_succ_lt_succ hi)
    · cases h

/-- `n` owners cannot take `n + 1` different values. -/
theorem firstFree_isSome {next : α → α} {taken : α → Bool} {n : Nat} (x : α) (value : Fin n → α)
    (howner : ∀ y, taken y = true → ∃ q, value q = y)
    (hdiff : ∀ i j : Fin (n + 1), next^[i] x = next^[j] x → i = j) :
    (firstFree next taken (n + 1) x).isSome := by
  by_contra hnone
  have hall := firstFree_none (Option.not_isSome_iff_eq_none.mp hnone)
  choose owner howns using fun i : Fin (n + 1) => howner _ (hall i i.isLt)
  have hinj : Function.Injective owner := by
    intro i j hij
    refine hdiff i j ?_
    rw [← howns i, ← howns j, hij]
  have hcard := Fintype.card_le_of_injective owner hinj
  rw [Fintype.card_fin, Fintype.card_fin] at hcard
  exact Nat.not_succ_le_self n hcard

end Xv6.Lib
