import Mathlib.Data.List.Basic

/-! # Loops whose rounds each touch their own entry -/

namespace Xv6.Lib

variable {σ ι α : Type _} [DecidableEq ι]

/-- If the round for `i` changes the entry of `i` alone, and by `g`, the loop changes the
entries it visits by `g`. -/
theorem foldl_own_entry (view : σ → ι → α) (body : σ → ι → σ) (g : α → α)
    (hbody : ∀ s i j, view (body s i) j = if j = i then g (view s j) else view s j)
    {l : List ι} (hl : l.Nodup) (s : σ) (j : ι) :
    view (l.foldl body s) j = if j ∈ l then g (view s j) else view s j := by
  induction l generalizing s with
  | nil => rfl
  | cons i l ih =>
    obtain ⟨hi, hl⟩ := List.nodup_cons.mp hl
    rw [List.foldl_cons, ih hl, hbody]
    by_cases hj : j = i
    · subst hj
      simp [hi]
    · simp [hj]

omit [DecidableEq ι] in
theorem foldl_invariant (inv : σ → Prop) (body : σ → ι → σ) (hbody : ∀ s i, inv s → inv (body s i))
    (l : List ι) {s : σ} (h : inv s) : inv (l.foldl body s) := by
  induction l generalizing s with
  | nil => exact h
  | cons i l ih => exact ih (hbody s i h)

end Xv6.Lib
