/-! # Ring arithmetic

A ring of `cap` cells with a head and a tail index. The occupied cells are the
`used` cells from the head on; one cell always stays free, so equal indices mean
empty. The facts below say how the two ends move.
-/

namespace Xv6.Lib.Ring

variable {cap h t i j : Nat}

def cell (cap h i : Nat) : Nat :=
  (h + i) % cap

def used (cap h t : Nat) : Nat :=
  (t + cap - h) % cap

/-- The occupied cells in order, oldest first. -/
def contents {α : Type _} (cap h t : Nat) (slot : Nat → α) : List α :=
  (List.range (used cap h t)).map fun i => slot (cell cap h i)

theorem used_lt (hc : 0 < cap) : used cap h t < cap :=
  Nat.mod_lt _ hc

section

variable (hh : h < cap)

include hh

theorem cell_eq (hi : i < cap) : cell cap h i = if h + i < cap then h + i else h + i - cap := by
  unfold cell
  split
  · exact Nat.mod_eq_of_lt ‹_›
  · rw [Nat.mod_eq_sub_mod (by omega), Nat.mod_eq_of_lt (by omega)]

theorem used_eq (ht : t < cap) : used cap h t = if h ≤ t then t - h else t + cap - h := by
  unfold used
  split
  · rw [Nat.mod_eq_sub_mod (by omega), Nat.mod_eq_of_lt (by omega)]
    omega
  · exact Nat.mod_eq_of_lt (by omega)

theorem next_eq : (h + 1) % cap = if h + 1 = cap then 0 else h + 1 := by
  split
  · rw [‹h + 1 = cap›, Nat.mod_self]
  · exact Nat.mod_eq_of_lt (by omega)

theorem used_eq_zero_iff (ht : t < cap) : used cap h t = 0 ↔ h = t := by
  rw [used_eq hh ht]
  split <;> omega

theorem cell_used (ht : t < cap) : cell cap h (used cap h t) = t := by
  rw [cell_eq hh (used_lt (by omega)), used_eq hh ht]
  split <;> split <;> omega

theorem cell_ne_tail (ht : t < cap) (hi : i < used cap h t) : cell cap h i ≠ t := by
  have hu : used cap h t < cap := used_lt (by omega)
  rw [cell_eq hh (by omega)]
  rw [used_eq hh ht] at hi
  split at hi <;> split <;> omega

theorem used_tail_next (ht : t < cap) (hfree : used cap h t + 1 < cap) :
    used cap h ((t + 1) % cap) = used cap h t + 1 := by
  rw [next_eq ht]
  rw [used_eq hh ht] at hfree ⊢
  split <;> (rw [used_eq hh (by omega)]; split at hfree <;> split <;> omega)

theorem used_head_next (ht : t < cap) (hne : h ≠ t) :
    used cap h t = used cap ((h + 1) % cap) t + 1 := by
  have hn : (h + 1) % cap < cap := Nat.mod_lt _ (by omega)
  rw [used_eq hh ht, used_eq hn ht, next_eq hh]
  split <;> split <;> split <;> omega

theorem cell_head_next (hi : i + 1 < cap) : cell cap ((h + 1) % cap) i = cell cap h (i + 1) := by
  rw [next_eq hh]
  split <;> (rw [cell_eq (by omega) (by omega), cell_eq hh hi]; split <;> split <;> omega)

end

section Contents

variable {α : Type _} {slot : Nat → α}

@[simp] theorem length_contents : (contents cap h t slot).length = used cap h t := by
  simp [contents]

theorem contents_eq_nil_iff (hh : h < cap) (ht : t < cap) :
    contents cap h t slot = [] ↔ h = t := by
  rw [← used_eq_zero_iff hh ht, ← List.length_eq_zero_iff, length_contents]

/-- Writing the tail cell and moving the tail appends, while a cell stays free. -/
theorem contents_push (hh : h < cap) (ht : t < cap) (hfree : used cap h t + 1 < cap) (x : α) :
    contents cap h ((t + 1) % cap) (fun k => if k = t then x else slot k) =
      contents cap h t slot ++ [x] := by
  unfold contents
  rw [used_tail_next hh ht hfree, List.range_succ, List.map_append]
  congr 1
  · apply List.map_congr_left
    intro i hi
    exact if_neg (cell_ne_tail hh ht (List.mem_range.mp hi))
  · simp [cell_used hh ht]

/-- Moving the head drops the oldest cell, which is the one under the head. -/
theorem contents_pop (hh : h < cap) (ht : t < cap) (hne : h ≠ t) :
    contents cap h t slot = slot h :: contents cap ((h + 1) % cap) t slot := by
  have hu := used_head_next hh ht hne
  have hlt : used cap h t < cap := used_lt (by omega)
  unfold contents
  rw [hu, List.range_succ_eq_map, List.map_cons, List.map_map]
  congr 1
  · simp [cell, Nat.mod_eq_of_lt hh]
  apply List.map_congr_left
  intro i hi
  have := List.mem_range.mp hi
  simp only [Function.comp_apply]
  rw [cell_head_next hh (by omega)]

end Contents

end Xv6.Lib.Ring
