import Mathlib.Algebra.BigOperators.Group.Finset.Basic
import Mathlib.Algebra.Order.BigOperators.Group.Finset

/-! # Sums that change in one place -/

namespace Xv6.Lib

variable {ι M : Type*} [DecidableEq ι] [AddCommMonoid M]

/-- Two sums that differ in one term, without subtraction. -/
theorem sum_change {s : Finset ι} {f g : ι → M} {i : ι} (hi : i ∈ s)
    (h : ∀ j ∈ s, j ≠ i → f j = g j) : ∑ j ∈ s, f j + g i = ∑ j ∈ s, g j + f i := by
  have hrest : ∑ j ∈ s.erase i, f j = ∑ j ∈ s.erase i, g j :=
    Finset.sum_congr rfl fun j hj => h j (Finset.mem_of_mem_erase hj) (Finset.ne_of_mem_erase hj)
  rw [← Finset.add_sum_erase s f hi, ← Finset.add_sum_erase s g hi, hrest]
  ac_rfl

/-- An account `H` that pays for the change of a sum `r` by one of its terms. -/
theorem rebalance {M : Type*} [AddCancelCommMonoid M] {H H' r r' x y : M} (hsum : r' + x = r + y)
    (h : H' + y = H + x) : H' + r' = H + r := by
  refine add_right_cancel (b := x + y) ?_
  calc H' + r' + (x + y) = (H' + y) + (r' + x) := by ac_rfl
    _ = H + r + (x + y) := by rw [hsum, h]; ac_rfl

end Xv6.Lib
