import Mathlib.Data.Fintype.Basic
import Xv6.Lib.LockOrder
import Xv6.Sync.LockBalance

/-! # The order in which the calls take their spin locks

`mutex->lock` and `cv.lock` are taken before `ptable.lock` everywhere but in a resumed
`cv_wait`, which gets `ptable.lock` from the scheduler and then takes `mutex->lock`. As
long as no call leaks a lock, a cycle of spinning processes is made of one such `cv_wait`
and one process that holds the same `mutex->lock` and spins on `ptable.lock`.
-/

namespace Xv6.Sync

open Function
open Lib Lib.Spin

variable {ι : Type} [DecidableEq ι]

variable {P : Procs ι} {s : State ι} {p : ι} {l : Lock} {c : Pc} {m : Mux}

/-! ## Lock levels -/

def Lock.level : Lock → Nat
  | .table => 0
  | .mux _ | .cv _ => 1
  | .ptable => 2

/-- The lock a process at this point is about to take. -/
def wanted : Pc → Option Lock
  | .createAcquire | .deleteAcquire _ => some .table
  | .lockAcquire m | .unlockAcquire m | .cvAcquire m | .cvReacquire m => some (.mux m)
  | .signalAcquire m => some (.cv m)
  | .sleepAcquire _ | .wakeupAcquire _ | .cvPtable _ | .signalPtable _ | .killAcquire _ =>
    some .ptable
  | _ => none

/-- The level of the lock wanted, except that a resumed `cv_wait` comes last. -/
def rank (c : Pc) : Nat :=
  match c with
  | .cvReacquire _ => 3
  | _ => ((wanted c).map Lock.level).getD 0

theorem code_acquire_iff (P : Procs ι) (p : ι) (c : Pc) (l : Lock) :
    (∃ next, code P p c = .acquire l next) ↔ wanted c = some l := by
  cases c with
  | createScan i => by_cases h : i < muxMaxNum <;> simp [code, wanted, h]
  | _ => simp [code, wanted]

theorem wants_iff : Wants (program P) s p l ↔ ∃ c, s.pc p = some c ∧ wanted c = some l := by
  constructor
  · rintro ⟨c, next, hc, hcode⟩
    exact ⟨c, hc, (code_acquire_iff P p c l).mp ⟨next, hcode⟩⟩
  · rintro ⟨c, hc, hw⟩
    obtain ⟨next, hcode⟩ := (code_acquire_iff P p c l).mpr hw
    exact ⟨c, next, hc, hcode⟩

theorem rank_of_wanted (h : wanted c = some l) : rank c = l.level ∨ ∃ m, c = .cvReacquire m ∧ l = .mux m := by
  cases c with
  | cvReacquire m =>
    cases h
    exact .inr ⟨m, rfl, rfl⟩
  | _ => simp_all [rank]

/-- A process that spins holds locks of a lower level only, by its rank. -/
theorem level_lt_rank {l' : Lock} (hheld : l ∈ locksAt c) (hw : wanted c = some l') : l.level < rank c := by
  cases c <;> simp_all [locksAt, wanted, rank, Lock.level]
  all_goals
    subst hw
    decide

/-- The holder of `mutex->lock` that spins is on its way to sleep. -/
theorem spinning_with_mux (hheld : .mux m ∈ locksAt c) (hw : wanted c = some l) :
    c = .sleepAcquire m ∨ c = .cvPtable m := by
  cases c <;> simp_all [locksAt, wanted]

/-! ## The one kind of cycle -/

/-- A resumed `cv_wait` and a process on its way to sleep on the same mutex. -/
def Crossed (s : State ι) : Prop :=
  ∃ p q m, s.pc p = some (.cvReacquire m) ∧
    (s.pc q = some (.sleepAcquire m) ∨ s.pc q = some (.cvPtable m))

theorem deadlocked_iff_crossed (hexact : Exact locksAt s) : Deadlocked (program P) s ↔ Crossed s := by
  constructor
  · intro hdead
    by_contra hnot
    refine not_deadlocked_of_rank (fun p => ((s.pc p).map rank).getD 0) ?_ hdead
    rintro p q r ⟨l, hp, howner⟩ ⟨l', hq, -⟩
    obtain ⟨c, hc, hw⟩ := wants_iff.mp hp
    obtain ⟨c', hc', hw'⟩ := wants_iff.mp hq
    obtain ⟨k, hk, hheld⟩ := (hexact q l).mp howner
    rw [hc', Option.some.injEq] at hk
    subst hk
    simp only [hc, hc', Option.map_some, Option.getD_some]
    rcases rank_of_wanted hw with hrank | ⟨m, rfl, rfl⟩
    · rw [hrank]
      exact level_lt_rank hheld hw'
    · refine absurd ⟨p, q, m, hc, ?_⟩ hnot
      rcases spinning_with_mux hheld hw' with rfl | rfl
      · exact .inl hc'
      · exact .inr hc'
  · rintro ⟨p, q, m, hp, hq⟩
    have hptable : s.owner .ptable = some p := (hexact p _).mpr ⟨_, hp, by simp [locksAt]⟩
    have hmux : s.owner (.mux m) = some q := by
      rw [hexact q]
      rcases hq with hq | hq <;> exact ⟨_, hq, by simp [locksAt]⟩
    have hpq : Waits (program P) s p q := ⟨.mux m, wants_iff.mpr ⟨_, hp, rfl⟩, hmux⟩
    have hqp : Waits (program P) s q p := by
      refine ⟨.ptable, wants_iff.mpr ?_, hptable⟩
      rcases hq with hq | hq <;> exact ⟨_, hq, rfl⟩
    exact ⟨p, .tail (.single hpq) hqp⟩

/-! ## The steps that lead there -/

/-- `p` resumes in `cv_wait` while another process is on its way to sleep on the same mutex,
or goes on its way to sleep while another has just resumed in `cv_wait`. -/
def Crosses (s : State ι) (a : Label ι) : Prop :=
  ∃ p m, a = .step p ∧
    ((s.pc p = some (.cvWait m) ∧
        ∃ q, s.pc q = some (.sleepAcquire m) ∨ s.pc q = some (.cvPtable m)) ∨
      ((s.pc p = some (.cvAcquire m) ∨
          s.pc p = some (.lockTest m) ∧ (s.mem.mutexes m).locked ≠ 0) ∧
        ∃ q, s.pc q = some (.cvReacquire m)))

theorem target_cvReacquire {x : Mem ι} : (code P p c).target x = some (.cvReacquire m) ↔ c = .cvWait m := by
  refine ⟨fun h => comesFrom_target h, ?_⟩
  rintro rfl
  rfl

theorem target_toSleep {x : Mem ι} : ((code P p c).target x = some (.sleepAcquire m) ∨
        (code P p c).target x = some (.cvPtable m)) ↔
      c = .cvAcquire m ∨ c = .lockTest m ∧ (x.mutexes m).locked ≠ 0 := by
  constructor
  · rintro (h | h)
    · exact .inr (comesFrom_target h)
    · exact .inl (comesFrom_target h)
  · rintro (rfl | ⟨rfl, hlocked⟩)
    · exact .inr rfl
    · exact .inl (by simp [code, Instr.target, hlocked])

/-- From a state without a crossing, exactly the steps of `Crosses` lead to one. -/
theorem step_crossed_iff {t : State ι} {a : Label ι} (hnot : ¬ Crossed s) (hstep : Step (program P) s a t) :
    Crossed t ↔ Crosses s a := by
  constructor
  · rintro ⟨p, q, m, hp, hq⟩
    -- no call starts at one of the two points
    have hbefore : ∀ x c, locksAt c ≠ ∅ → t.pc x = some c → s.pc x = some c ∨
        ∃ k, a = .step x ∧ s.pc x = some k ∧ (code P x k).target s.mem = some c := by
      intro x c hlocks hxc
      refine (pc_before hstep hxc).imp id (Or.resolve_left · ?_)
      rintro ⟨k, -, rfl⟩
      exact hlocks (locksAt_entry k)
    have hpq : p ≠ q := by
      rintro rfl
      rw [hp] at hq
      simp at hq
    rcases hbefore p _ (by simp [locksAt]) hp with hp | ⟨k, rfl, hk, htarget⟩
    · have hq : (s.pc q = some (.sleepAcquire m) ∨ s.pc q = some (.cvPtable m)) ∨
          ∃ k, a = .step q ∧ s.pc q = some k ∧ ((code P q k).target s.mem = some (.sleepAcquire m) ∨
            (code P q k).target s.mem = some (.cvPtable m)) := by
        rcases hq with hq | hq
        · refine (hbefore q _ (by simp [locksAt]) hq).imp .inl ?_
          rintro ⟨k, ha, hk, h⟩
          exact ⟨k, ha, hk, .inl h⟩
        · refine (hbefore q _ (by simp [locksAt]) hq).imp .inr ?_
          rintro ⟨k, ha, hk, h⟩
          exact ⟨k, ha, hk, .inr h⟩
      rcases hq with hq | ⟨k, rfl, hk, htarget⟩
      · exact absurd ⟨p, q, m, hp, hq⟩ hnot
      · refine ⟨q, m, rfl, .inr ⟨?_, p, hp⟩⟩
        rcases target_toSleep.mp htarget with rfl | ⟨rfl, hlocked⟩
        · exact .inl hk
        · exact .inr ⟨hk, hlocked⟩
    · obtain rfl := target_cvReacquire.mp htarget
      refine ⟨p, m, rfl, .inl ⟨hk, q, ?_⟩⟩
      obtain ⟨_, -, hpc⟩ := (executed_at hstep hk).target_isSome
      rwa [hpc, update_of_ne hpq.symm] at hq
  · rintro ⟨p, m, rfl, hcross⟩
    obtain ⟨c, hr, hx⟩ := executed_of_step hstep
    obtain ⟨c', htarget, hpc⟩ := hx.target_isSome
    have hself : t.pc p = some c' := by rw [hpc, update_self]
    have hother : ∀ q, s.pc q ≠ s.pc p → t.pc q = s.pc q := by
      intro q hne
      rw [hpc, update_of_ne]
      rintro rfl
      exact hne rfl
    rcases hcross with ⟨hp, q, hq⟩ | ⟨hp, q, hq⟩
    · rw [hr, Option.some.injEq] at hp
      have hto : t.pc p = some (.cvReacquire m) := by
        rw [hself, ← htarget]
        exact target_cvReacquire.mpr hp
      subst hp
      refine ⟨p, q, m, hto, ?_⟩
      rwa [hother q (by rw [hr]; rcases hq with hq | hq <;> simp [hq])]
    · simp only [hr, Option.some.injEq] at hp
      have hto : t.pc p = some (.sleepAcquire m) ∨ t.pc p = some (.cvPtable m) := by
        rw [hself, ← htarget]
        exact target_toSleep.mpr hp
      refine ⟨q, p, m, ?_, hto⟩
      rw [hother q, hq]
      rw [hr, hq]
      rintro hcc
      cases hcc
      simp at hp

/-! ## Runs -/

/-- No lock is held but by the code that will give it back. -/
def Tidy (s : State ι) : Prop :=
  Exact locksAt s ∧ ∀ p c, s.pc p = some c → ¬ Leaky c

theorem Tidy.step {t : State ι} {a : Label ι} (h : Tidy s) (hstep : Step (program P) s a t)
    (hleak : ∀ p, ¬ Leaks p s a) : Tidy t := by
  refine ⟨h.1.step (program_annotated P) hstep ?_, fun p c hc => ?_⟩
  · rintro p r c rfl hc
    obtain ⟨k, hk, hcode, -⟩ := returned_of_step hstep
    rw [hc, Option.some.injEq] at hk
    subst hk
    exact (locksAt_ret hcode).mpr (h.2 p c hc)
  · rcases pc_before hstep hc with hc | ⟨k, rfl, rfl⟩ | ⟨k, rfl, hk, htarget⟩
    · exact h.2 p c hc
    · exact entry_not_leaky k
    · obtain ⟨c', hc', hiff⟩ := step_leaky hstep hk (h.2 p k hk) fun r hr => by cases hr
      rw [hc, Option.some.injEq] at hc'
      rw [hc', hiff]
      exact hleak p

omit [DecidableEq ι] in
theorem Quiet.tidy (h : Quiet s) : Tidy s := by
  refine ⟨.of_rest h.1 h.2, fun p c hc => ?_⟩
  rw [h.1 p] at hc
  cases hc

omit [DecidableEq ι] in
theorem Quiet.not_crossed (h : Quiet s) : ¬ Crossed s := by
  rintro ⟨p, q, m, hp, -⟩
  rw [h.1 p] at hp
  cases hp

/-- No step leaks a lock, and no resumed `cv_wait` crosses a process on its way to sleep. -/
def Ordered (s : State ι) (a : Label ι) : Prop :=
  (∀ p, ¬ Leaks p s a) ∧ ¬ Crosses s a

/-- Any processes, any contents of the tables, any interleaving: while every step is
`Ordered` no cycle of processes spins on each other's locks, and among the steps that leak
no lock it is exactly a crossing that closes such a cycle. -/
theorem spinlocks_acyclic {P : Procs ι} {s t : State ι} {as : List (Label ι)} (hrest : Quiet s)
    (hrun : Run (Guarded (Step (program P)) Ordered) s as t) :
    ¬ Deadlocked (program P) t ∧
      ∀ a u, Step (program P) t a u → (∀ p, ¬ Leaks p t a) →
        (Deadlocked (program P) u ↔ Crosses t a) := by
  have hkeeps : ∀ s a t, Tidy s ∧ ¬ Crossed s → Ordered s a → Step (program P.toTable) s a t →
      Tidy t ∧ ¬ Crossed t := by
    intro s a t h hok hstep
    exact ⟨h.1.step hstep hok.1, fun hc => hok.2 ((step_crossed_iff h.2 hstep).mp hc)⟩
  obtain ⟨htidy, hnot⟩ := hrun.invariant_of_guarded hkeeps ⟨hrest.tidy, hrest.not_crossed⟩
  refine ⟨fun hdead => hnot ((deadlocked_iff_crossed htidy.1).mp hdead), fun a u hstep hleak => ?_⟩
  rw [deadlocked_iff_crossed (htidy.step hstep hleak).1, step_crossed_iff hnot hstep]

/-! ## Two runs of three processes -/

instance crosses_decidable [Fintype ι] (s : State ι) (a : Label ι) : Decidable (Crosses s a) :=
  match a with
  | .call _ _ => isFalse fun h => by
    obtain ⟨p, m, ha, -⟩ := h
    cases ha
  | .ret _ _ => isFalse fun h => by
    obtain ⟨p, m, ha, -⟩ := h
    cases ha
  | .step p =>
    decidable_of_iff (∃ m : Mux,
      (s.pc p = some (.cvWait m) ∧
        ∃ q, s.pc q = some (.sleepAcquire m) ∨ s.pc q = some (.cvPtable m)) ∨
      ((s.pc p = some (.cvAcquire m) ∨
          s.pc p = some (.lockTest m) ∧ (s.mem.mutexes m).locked ≠ 0) ∧
        ∃ q, s.pc q = some (.cvReacquire m)))
      ⟨fun ⟨m, h⟩ => ⟨p, m, rfl, h⟩, fun h => by
        obtain ⟨q, m, ha, h⟩ := h
        cases ha
        exact ⟨m, h⟩⟩

instance ordered_decidable [Fintype ι] (s : State ι) (a : Label ι) : Decidable (Ordered s a) :=
  inferInstanceAs (Decidable (_ ∧ _))

/-- The first process creates a mutex, the second waits on it and the third signals it. -/
def signalled : List (Label (Fin 3)) :=
  .call 0 .mutexCreate :: steps 0 4 ++ .ret 0 0 :: .call 1 (.cvWait 0) :: steps 1 9 ++
    .call 2 (.cvSignal 0) :: steps 2 7 ++ [.ret 2 1]

/-- The waiter resumes and returns, with nobody in its way. -/
theorem spinlocks_acyclic_signalled :
    ∃ t, Run (Step (program threeProcs)) (booted (Fin 3)) (signalled ++ steps 1 7) t ∧
      t.pc 1 = some (.cvDone 0) ∧ ¬ Deadlocked (program threeProcs) t := by
  exact Run.exists_of_guarded Ordered (Run.foundOk id (fun t => t.pc 1 = some (.cvDone 0))
    (by decide +kernel) fun t hguard hpc =>
      ⟨hpc, (spinlocks_acyclic ⟨fun _ => rfl, fun _ => rfl⟩ hguard).1⟩)

/-- The first process calls `cv_wait` too and has `mutex->lock` when the second resumes with
`ptable.lock`: each now spins on the lock of the other. -/
theorem cv_wait_deadlocks :
    ∃ t, Run (Step (program threeProcs)) (booted (Fin 3))
        (signalled ++ [.call 0 (.cvWait 0), .step 0, .step 1]) t ∧
      Waits (program threeProcs) t 0 1 ∧ Waits (program threeProcs) t 1 0 := by
  refine Run.found id (fun t => (t.pc 0 = some (.cvPtable 0) ∧ t.owner .ptable = some 1) ∧
    t.pc 1 = some (.cvReacquire 0) ∧ t.owner (.mux 0) = some 0) (by decide +kernel) ?_
  rintro t - ⟨⟨h0, hptable⟩, h1, hmux⟩
  exact ⟨⟨.ptable, wants_iff.mpr ⟨_, h0, rfl⟩, hptable⟩, ⟨.mux 0, wants_iff.mpr ⟨_, h1, rfl⟩, hmux⟩⟩

end Xv6.Sync
