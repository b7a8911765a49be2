import Mathlib.Logic.Function.Basic

/-! # Blocks and the places that hold them

A place holds at most one block and a block is held in at most one place; the blocks that are
marked as taken are those that some place holds. An allocator moves a block from the unmarked
ones to an empty place and back.
-/

namespace Xv6.Lib

open Function

variable {ι β : Type*}

/-- No block is held twice, and the marked blocks are those that are held. -/
structure Allocated (held : ι → Option β) (marked : β → Prop) : Prop where
  unique : ∀ {i j b}, held i = some b → held j = some b → i = j
  marked_iff : ∀ {b}, marked b ↔ ∃ i, held i = some b

namespace Allocated

variable {held held' : ι → Option β} {marked marked' : β → Prop} {i : ι} {b : β}

theorem marked_of_held (h : Allocated held marked) (hi : held i = some b) : marked b :=
  h.marked_iff.mpr ⟨i, hi⟩

theorem congr (h : Allocated held marked) (hheld : ∀ i, held' i = held i)
    (hmarked : ∀ b, marked' b ↔ marked b) : Allocated held' marked' := by
  refine ⟨fun {i j b} hi hj => ?_, fun {b} => ?_⟩
  · rw [hheld] at hi hj
    exact h.unique hi hj
  · rw [hmarked, h.marked_iff]
    simp only [hheld]

variable [DecidableEq ι]

theorem take (h : Allocated held marked) (hi : held i = none) (hb : ¬ marked b) :
    Allocated (update held i (some b)) fun c => c = b ∨ marked c := by
  have hfree : ∀ j, held j ≠ some b := fun j hj => hb (h.marked_of_held hj)
  refine ⟨fun {j k c} hj hk => ?_, fun {c} => ?_⟩
  · by_cases hji : j = i <;> by_cases hki : k = i
    · rw [hji, hki]
    · rw [hji, update_self] at hj
      rw [update_of_ne hki, ← hj] at hk
      exact absurd hk (hfree k)
    · rw [hki, update_self] at hk
      rw [update_of_ne hji, ← hk] at hj
      exact absurd hj (hfree j)
    · rw [update_of_ne hji] at hj
      rw [update_of_ne hki] at hk
      exact h.unique hj hk
  · constructor
    · rintro (rfl | hc)
      · exact ⟨i, update_self ..⟩
      obtain ⟨j, hj⟩ := h.marked_iff.mp hc
      have hji : j ≠ i := by
        rintro rfl
        rw [hi] at hj
        cases hj
      exact ⟨j, by rw [update_of_ne hji, hj]⟩
    · rintro ⟨j, hj⟩
      by_cases hji : j = i
      · rw [hji, update_self] at hj
        exact .inl (Option.some.inj hj).symm
      · rw [update_of_ne hji] at hj
        exact .inr (h.marked_of_held hj)

theorem release (h : Allocated held marked) (hi : held i = some b) :
    Allocated (update held i none) fun c => c ≠ b ∧ marked c := by
  have hne : ∀ {j c}, update held i none j = some c → j ≠ i ∧ held j = some c := by
    intro j c hj
    by_cases hji : j = i
    · rw [hji, update_self] at hj
      cases hj
    · rw [update_of_ne hji] at hj
      exact ⟨hji, hj⟩
  refine ⟨fun hj hk => h.unique (hne hj).2 (hne hk).2, fun {c} => ?_⟩
  constructor
  · rintro ⟨hcb, hc⟩
    obtain ⟨j, hj⟩ := h.marked_iff.mp hc
    have hji : j ≠ i := by
      rintro rfl
      rw [hi] at hj
      exact hcb (Option.some.inj hj).symm
    exact ⟨j, by rw [update_of_ne hji, hj]⟩
  · rintro ⟨j, hj⟩
    obtain ⟨hji, hj⟩ := hne hj
    refine ⟨?_, h.marked_of_held hj⟩
    rintro rfl
    exact hji (h.unique hj hi)

end Allocated

end Xv6.Lib
