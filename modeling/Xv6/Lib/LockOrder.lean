import Mathlib.Logic.Relation
import Xv6.Lib.Spin

/-! # Who waits for whom

A thread at the `acquire` of a lock that another thread holds spins until that one gives
the lock back. A cycle of such threads never moves again. There is none where the threads
that wait, and are waited for, can be ranked.
-/

namespace Xv6.Lib.Spin

variable {ι C L Pc M : Type}

def Wants (P : Program ι C L Pc M) (s : State ι L Pc M) (p : ι) (l : L) : Prop :=
  ∃ c next, s.pc p = some c ∧ P.code p c = .acquire l next

def Waits (P : Program ι C L Pc M) (s : State ι L Pc M) (p q : ι) : Prop :=
  ∃ l, Wants P s p l ∧ s.owner l = some q

/-- A cycle of threads, each spinning on a lock that the next one holds. -/
def Deadlocked (P : Program ι C L Pc M) (s : State ι L Pc M) : Prop :=
  ∃ p, Relation.TransGen (Waits P s) p p

variable {P : Program ι C L Pc M} {s : State ι L Pc M} {locks : Pc → Finset L}

theorem waits_of_deadlocked {p : ι} (h : Relation.TransGen (Waits P s) p p) :
    ∃ q, Waits P s p q := by
  obtain ⟨q, hq, -⟩ := Relation.TransGen.head'_iff.mp h
  exact ⟨q, hq⟩

/-- It is enough to rank the threads along edges that lead to a thread which waits itself. -/
theorem not_deadlocked_of_rank (rank : ι → Nat)
    (hrank : ∀ p q r, Waits P s p q → Waits P s q r → rank p < rank q) : ¬ Deadlocked P s := by
  have hpath : ∀ p q, Relation.TransGen (Waits P s) p q → ∀ r, Waits P s q r → rank p < rank q := by
    intro p q h
    induction h with
    | single hpq => exact fun r hr => hrank _ _ r hpq hr
    | tail _ hedge ih => exact fun r hr => Nat.lt_trans (ih _ hedge) (hrank _ _ r hedge hr)
  rintro ⟨p, hcycle⟩
  obtain ⟨q, hq⟩ := waits_of_deadlocked hcycle
  exact Nat.lt_irrefl _ (hpath p p hcycle q hq)

variable [DecidableEq ι] [DecidableEq L]

/-- The locks held are the ones the annotation gives to the program points. -/
def Exact (locks : Pc → Finset L) (s : State ι L Pc M) : Prop :=
  ∀ p l, s.owner l = some p ↔ ∃ c, s.pc p = some c ∧ l ∈ locks c

omit [DecidableEq ι] [DecidableEq L] in
theorem Exact.of_rest (hpc : ∀ p, s.pc p = none) (howner : ∀ l, s.owner l = none) :
    Exact locks s := by
  intro p l
  simp [hpc, howner]

omit [DecidableEq ι] [DecidableEq L] in
theorem Exact.holding (h : Exact locks s) {p : ι} {c : Pc} (hc : s.pc p = some c) :
    Holding locks (fun _ => False) p s := by
  refine ⟨c, hc, fun l => ?_, fun _ _ hf => hf⟩
  rw [h p l, hc]
  simp

/-- Only the return from a point with locks breaks it. -/
theorem Exact.step (hA : Annotates P locks) {t : State ι L Pc M} {a : Label ι C} (h : Exact locks s)
    (hstep : Step P s a t) (hret : ∀ p r c, a = .ret p r → s.pc p = some c → locks c = ∅) :
    Exact locks t := by
  intro p l
  obtain ⟨q, k, -, hq, rfl⟩ | ⟨q, k, -, hq, hx⟩ | ⟨q, k, r, rfl, hq, -, rfl⟩ := step_cases hstep
  · by_cases hpq : p = q
    · subst hpq
      rw [goto_owner, h p l, hq, goto_pc_self]
      simp [hA.entry]
    · rw [goto_owner, goto_pc_of_ne hpq]
      exact h p l
  · by_cases hpq : p = q
    · subst hpq
      obtain ⟨c, hc, hheld, -⟩ := (h.holding hq).executed hA hq hx
      rw [hheld l, hc]
      simp
    · obtain ⟨howner, hpc⟩ := owner_frame hx hpq
      rw [howner l, hpc]
      exact h p l
  · by_cases hpq : p = q
    · subst hpq
      have hfree := hret p r k rfl hq
      have hp := h p l
      rw [hq] at hp
      simp only [Function.update_self, reduceCtorEq, false_and, exists_false, iff_false]
      intro howner
      obtain ⟨c, hc, hl⟩ := hp.mp howner
      cases hc
      rw [hfree] at hl
      simp at hl
    · simp only [Function.update_of_ne hpq]
      exact h p l

end Xv6.Lib.Spin
