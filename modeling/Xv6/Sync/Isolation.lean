import Xv6.Sync.WaitQueue

/-! # Namespaces and the mutex table

A mutex carries the namespace of the process that created it, and `mutex_lock` alone
compares it with the caller's. A process past that test works on a mutex of its own
namespace for as long as the slot keeps it; where the other calls keep to the slots of
their caller's namespace too, no step reaches into another one.
-/

namespace Xv6.Sync

open Function
open Lib Lib.Spin

variable {ι : Type} [DecidableEq ι]

variable {P : Procs ι} {s t : State ι} {a : Label ι} {p q r : ι} {c c' : Pc} {m : Mux}

/-! ## Isolation of one step -/

/-- Taken by `mutex_create` and given its namespace. -/
def InUse (s : State ι) (m : Mux) : Prop :=
  (s.mem.mutexes m).used ≠ 0 ∧ ∀ q, s.pc q ≠ some (.createName m)

def Foreign (P : Procs ι) (s : State ι) (p : ι) (m : Mux) : Prop :=
  InUse s m ∧ (s.mem.mutexes m).nameSpace ≠ P.nameSpace p

/-- Asleep in `mutex_lock` or in `cv_wait` on `m`. -/
def BlockedOn (s : State ι) (q : ι) (m : Mux) : Prop :=
  (s.mem.proc q).state = .sleeping ∧ (s.pc q = some (.sleepWait m) ∨ s.pc q = some (.cvWait m))

def actor : Label ι → ι
  | .call p _ | .step p | .ret p _ => p

/-- A step of one of the six calls on mutexes leaves the mutexes of other namespaces, and
the processes blocked on them, as they are. `kill` is not one of the six. -/
def Isolated (P : Procs ι) (s : State ι) (a : Label ι) (t : State ι) : Prop :=
  (∀ pid, s.pc (actor a) ≠ some (.killFind pid)) → ∀ m, Foreign P s (actor a) m →
    t.mem.mutexes m = s.mem.mutexes m ∧ ∀ q, BlockedOn s q m → (t.mem.proc q).state = .sleeping

/-! ## Calls that keep to their namespace -/

/-- The points of a call on `m` with an access to it still to come; of `mutex_lock`, those
past the test of the namespace. -/
def worksOn (m : Mux) : Pc → Bool
  | .deleteAcquire k | .deleteUsed k | .deleteLocked k | .deleteWaiters k | .deleteClearLocked k
  | .deleteClearUsed k | .lockPid k | .lockAcquire k | .lockTest k | .lockSet k | .lockSetPid k
  | .sleepAcquire k | .sleepRelease k | .sleepMark k | .sleepSched k | .sleepWait k | .sleepWake k
  | .sleepDone k | .unlockAcquire k | .unlockUsed k | .unlockPid k | .unlockRecord k
  | .unlockClear k | .unlockClearPid k | .unlockRelease k | .wakeupAcquire k | .wakeup1 k
  | .cvAcquire k | .cvPtable k | .cvUsed k | .cvPid k | .cvFull k | .cvEnqueue k | .cvMark k
  | .cvRelease k | .cvSched k | .cvWait k | .cvReacquire k | .cvSet k | .cvSetPid k
  | .signalAcquire k | .signalPtable k | .signalTest k | .signalShift k => k == m
  | _ => false

/-- The condition on a step in the state before it. `mutex_delete` and `mutex_unlock` are not
called on a mutex of another namespace; `cv_signal` never looks at `used`, so for it and for
`cv_wait` the slot itself has to carry the caller's. And `mutex_create` writes no namespace
under a process of another one that is at work on the slot or has its pid in the queue. -/
def Respects (P : Procs ι) (s : State ι) : Label ι → Prop
  | .call p (.mutexDelete k) | .call p (.mutexUnlock k) =>
    ∀ m : Mux, (m : Int) = k → ¬ Foreign P s p m
  | .call p (.cvWait k) | .call p (.cvSignal k) =>
    ∀ m : Mux, (m : Int) = k → (s.mem.mutexes m).nameSpace = P.nameSpace p
  | .step p => ∀ m, s.pc p = some (.createName m) → ∀ q, P.nameSpace q ≠ P.nameSpace p →
      P.pid q ∉ (s.mem.mutexes m).queue ∧ ∀ c ∈ s.pc q, worksOn m c = false
  | _ => True

/-- The points of `cv_wait` and `cv_signal` up to their write to the wait queue. -/
def queuesOn (m : Mux) : Pc → Bool
  | .cvAcquire k | .cvPtable k | .cvUsed k | .cvPid k | .cvFull k | .cvEnqueue k
  | .signalAcquire k | .signalPtable k | .signalTest k | .signalShift k => k == m
  | _ => false

theorem worksOn_of_queuesOn (h : queuesOn m c = true) : worksOn m c = true := by
  cases c <;> first | exact h | cases h

/-- No process is at work on a mutex in use in another namespace, and the queues, with the
pids taken out of them, are of one namespace each. -/
structure Apart (P : Procs ι) (s : State ι) : Prop extends Counted s where
  inside : ∀ p c m, s.pc p = some c → worksOn m c = true → ¬ Foreign P s p m
  queuing : ∀ p c m, s.pc p = some c → queuesOn m c = true →
    (s.mem.mutexes m).nameSpace = P.nameSpace p
  queued : ∀ q m, P.pid q ∈ (s.mem.mutexes m).queue → (s.mem.mutexes m).nameSpace = P.nameSpace q
  picked : ∀ p q m, s.pc p = some (.signalWake m (P.pid q)) → P.nameSpace q = P.nameSpace p

/-! ## One instruction -/

theorem nameSpace_effect (P : Procs ι) (p : ι) (x : Mem ι) (h : c ≠ .createName m) :
    (((code P p c).effect x).mutexes m).nameSpace = (x.mutexes m).nameSpace := by
  cases c with
  | createScan i =>
    rcases effect_createScan P p i x with heq | ⟨k, -, heq⟩
    · rw [heq]
    · rw [heq, Mem.mutex_mutexes]
      split <;> rfl
  | createName k =>
    have hk : k ≠ m := fun heq => h (heq ▸ rfl)
    simp [code, Instr.effect, Mem.mutex_mutexes, hk]
  | _ =>
    simp only [code, Instr.effect, Mem.mutex_mutexes, Mem.update_mutexes, Mem.wakeup1_mutexes,
      Mem.wakePid_mutexes, Mem.kill_mutexes, id_eq]
    try split
    all_goals rfl

/-- The scan of `mutex_create` writes a slot only to take it. -/
theorem createScan_effect (P : Procs ι) (p : ι) (i : Nat) (x : Mem ι) (m : Mux) :
    ((code P p (.createScan i)).effect x).mutexes m = x.mutexes m ∨
      (x.mutexes m).used = 0 ∧ (code P p (.createScan i)).target x = some (.createName m) := by
  by_cases hi : i < muxMaxNum
  · simp only [code, dif_pos hi, Instr.effect, Instr.target]
    split
    · rename_i hfree
      rw [Mem.mutex_mutexes]
      split
      · rename_i hm
        subst hm
        exact .inr ⟨hfree, rfl⟩
      · exact .inl rfl
    · exact .inl rfl
  · simp [code, hi, Instr.effect]

/-- Only a process at work on a mutex writes it, but for the two writes of `mutex_create`. -/
theorem mutexes_effect (P : Procs ι) (p : ι) (x : Mem ι) (hwork : worksOn m c = false)
    (hname : c ≠ .createName m) : ((code P p c).effect x).mutexes m = x.mutexes m ∨
      (x.mutexes m).used = 0 := by
  cases c with
  | createScan i => exact (createScan_effect P p i x m).imp id And.left
  | createName k =>
    have hk : k ≠ m := fun heq => hname (heq ▸ rfl)
    simp [code, Instr.effect, Mem.mutex_mutexes, hk]
  | _ =>
    simp only [worksOn, beq_eq_false_iff_ne, ne_eq] at hwork
    simp [code, Instr.effect, Mem.mutex_mutexes, hwork]

/-- A slot that an instruction takes has no namespace after it. -/
theorem used_effect (P : Procs ι) (p : ι) (x : Mem ι)
    (hused : (((code P p c).effect x).mutexes m).used ≠ 0) :
    (x.mutexes m).used ≠ 0 ∨ (code P p c).target x = some (.createName m) := by
  cases c with
  | createScan i =>
    refine (createScan_effect P p i x m).imp (fun hsame => ?_) And.right
    rwa [hsame] at hused
  | _ =>
    simp only [code, Instr.effect, Mem.mutex_mutexes, Mem.update_mutexes, Mem.wakeup1_mutexes,
      Mem.wakePid_mutexes, Mem.kill_mutexes, id_eq] at hused
    try split at hused
    all_goals first | exact .inl hused | exact absurd rfl hused

/-- The way to work on a mutex is the call or the test of `mutex_lock`. -/
theorem worksOn_target {x : Mem ι} (h : (code P p c).target x = some c') (hwork : worksOn m c' = true) :
    worksOn m c = true ∨ (x.mutexes m).nameSpace = P.nameSpace p := by
  cases c with
  | createScan i => rcases target_createScan h with ⟨k, rfl⟩ | rfl | rfl <;> cases hwork
  | lockNameSpace k =>
    simp only [code, Instr.target, Option.some.injEq] at h
    subst h
    split at hwork
    · cases hwork
    · rename_i hsame
      obtain rfl := beq_iff_eq.mp hwork
      exact .inr (not_not.mp hsame)
  | _ =>
    simp only [code, Instr.target, Option.some.injEq, reduceCtorEq] at h
    try subst h
    try split at hwork
    all_goals first | exact .inl hwork | cases hwork

theorem queuesOn_target {x : Mem ι} (h : (code P p c).target x = some c') (hqueue : queuesOn m c' = true) :
    queuesOn m c = true := by
  cases c with
  | createScan i => rcases target_createScan h with ⟨k, rfl⟩ | rfl | rfl <;> cases hqueue
  | _ =>
    simp only [code, Instr.target, Option.some.injEq, reduceCtorEq] at h
    try subst h
    try split at hqueue
    all_goals first | exact hqueue | cases hqueue

/-! ## Calls -/

omit [DecidableEq ι] in
theorem Respects.queuing {k : Call} (h : Respects P s (.call p k)) (hqueue : queuesOn m (entry k) = true) :
    (s.mem.mutexes m).nameSpace = P.nameSpace p := by
  have hstarts := starts_entry k
  generalize entry k = c at hstarts hqueue
  cases hstarts with
  | cvWait k | cvSignal k => exact beq_iff_eq.mp hqueue ▸ h k rfl
  | _ => cases hqueue

omit [DecidableEq ι] in
theorem Respects.inside {k : Call} (h : Respects P s (.call p k)) (hwork : worksOn m (entry k) = true) :
    ¬ Foreign P s p m := by
  have hstarts := starts_entry k
  generalize entry k = c at hstarts hwork
  cases hstarts with
  | delete k | unlock k => exact beq_iff_eq.mp hwork ▸ h k rfl
  | cvWait k | cvSignal k => exact beq_iff_eq.mp hwork ▸ fun hf => hf.2 (h k rfl)
  | _ => cases hwork

/-! ## Steps -/

/-- `mutex_create` by `r` writes the namespace of the slot it has taken. -/
def Naming (s : State ι) (a : Label ι) (m : Mux) (r : ι) : Prop :=
  a = .step r ∧ s.pc r = some (.createName m)

/-- Otherwise a slot keeps its namespace and comes into no use. -/
theorem naming_or (hstep : Step (program P) s a t) (m : Mux) :
    (∃ r, Naming s a m r ∧ (t.mem.mutexes m).nameSpace = P.nameSpace r) ∨
      (t.mem.mutexes m).nameSpace = (s.mem.mutexes m).nameSpace ∧ (InUse t m → InUse s m) := by
  rcases executed_or_unmoved aside_entry (fun _ _ _ => aside_ret) hstep with ⟨q, k, rfl, hq, hx⟩ | hu
  · change Executed s q (code P q k) t at hx
    by_cases hname : k = .createName m
    · subst hname
      exact .inl ⟨q, ⟨rfl, hq⟩, by simp [hx.mem_eq, code, Instr.effect, Mem.mutex_mutexes]⟩
    refine .inr ⟨by rw [hx.mem_eq, nameSpace_effect P q s.mem hname], fun h => ⟨?_, fun p hp => h.2 p ?_⟩⟩
    · have hused := h.1
      rw [hx.mem_eq] at hused
      refine (used_effect P q s.mem hused).resolve_right fun htarget => h.2 q ?_
      obtain ⟨c, htarget', hpc⟩ := hx.target_isSome
      rw [hpc, update_self, ← htarget', htarget]
    · have hpq : p ≠ q := by
        rintro rfl
        exact hname (Option.some.inj (hq.symm.trans hp))
      rw [(owner_frame hx hpq).2, hp]
  · rw [hu.mem]
    exact .inr ⟨rfl, fun h => ⟨hu.mem ▸ h.1, fun p hp => h.2 p ((hu.pc p _ rfl).mpr hp)⟩⟩

theorem mem_queue_before (h : Counted s) (hstep : Step (program P) s a t) {v : Int}
    (hv : v ∈ (t.mem.mutexes m).queue) : v ∈ (s.mem.mutexes m).queue ∨
      ∃ r, a = .step r ∧ s.pc r = some (.cvEnqueue m) ∧ v = P.pid r := by
  rcases executed_or_unmoved aside_entry (fun _ _ _ => aside_ret) hstep with ⟨r, c, rfl, hc, hx⟩ | hu
  · rcases queue_executed h hc hx m with ⟨rfl, hqueue, -⟩ | ⟨-, hqueue, -⟩ | ⟨-, -, hqueue, -⟩
    · rw [hqueue, List.mem_append, List.mem_singleton] at hv
      exact hv.imp id fun heq => ⟨r, rfl, hc, heq⟩
    · rw [hqueue]
      exact .inl (List.mem_cons_of_mem _ hv)
    · exact .inl (hqueue ▸ hv)
  · exact .inl (hu.mem ▸ hv)

section Step

variable (h : Apart P s) (hok : Respects P s a) (hstep : Step (program P) s a t)

include h hok hstep

/-- Nobody gets to work on a mutex of another namespace. -/
theorem Apart.inside_before (hc : t.pc p = some c) (hwork : worksOn m c = true) : ¬ Foreign P s p m := by
  rcases pc_before hstep hc with hc | ⟨k, rfl, rfl⟩ | ⟨c, rfl, hc, htarget⟩
  · exact h.inside p _ m hc hwork
  · exact hok.inside hwork
  · rcases worksOn_target htarget hwork with hbefore | hsame
    · exact h.inside p c m hc hbefore
    · exact fun hf => hf.2 hsame

theorem Apart.queuing_before (hc : t.pc p = some c) (hqueue : queuesOn m c = true) :
    (s.mem.mutexes m).nameSpace = P.nameSpace p := by
  rcases pc_before hstep hc with hc | ⟨k, rfl, rfl⟩ | ⟨c, rfl, hc, htarget⟩
  · exact h.queuing p _ m hc hqueue
  · exact hok.queuing hqueue
  · exact h.queuing p c m hc (queuesOn_target htarget hqueue)

omit h in
/-- While a namespace is written, nobody of another one is at work on the slot. -/
theorem Respects.idle (hname : Naming s a m r) (hne : P.nameSpace p ≠ P.nameSpace r) (hc : t.pc p = some c) :
    worksOn m c = false := by
  obtain ⟨rfl, hr⟩ := hname
  refine (hok m hr p hne).2 c ?_
  rcases pc_before hstep hc with hc | ⟨k, hk, -⟩ | ⟨c, hk, -⟩
  · exact hc
  · cases hk
  · cases hk
    exact absurd rfl hne

theorem Apart.step : Apart P t where
  toCounted := h.toCounted.step hstep
  inside := fun p c m hc hwork hf => by
    rcases naming_or hstep m with ⟨r, hname, hnew⟩ | ⟨hsame, huse⟩
    · have hne : P.nameSpace p ≠ P.nameSpace r := fun heq => hf.2 (hnew.trans heq.symm)
      simp [hok.idle hstep hname hne hc] at hwork
    · exact h.inside_before hok hstep hc hwork ⟨huse hf.1, hsame ▸ hf.2⟩
  queuing := fun p c m hc hqueue => by
    rcases naming_or hstep m with ⟨r, hname, hnew⟩ | ⟨hsame, -⟩
    · by_contra hne
      rw [hnew] at hne
      have hidle := hok.idle hstep hname (Ne.symm hne) hc
      simp [worksOn_of_queuesOn hqueue] at hidle
    · rw [hsame]
      exact h.queuing_before hok hstep hc hqueue
  queued := fun q m hq => by
    have hbefore := mem_queue_before h.toCounted hstep hq
    rcases naming_or hstep m with ⟨r, ⟨rfl, hr⟩, hnew⟩ | ⟨hsame, -⟩
    · by_contra hne
      rw [hnew] at hne
      rcases hbefore with hin | ⟨r', he, hr', -⟩
      · exact (hok m hr q (Ne.symm hne)).1 hin
      · cases he
        rw [hr] at hr'
        cases hr'
    · rw [hsame]
      rcases hbefore with hin | ⟨r, -, hr, hpid⟩
      · exact h.queued q m hin
      · obtain rfl := P.pid_injective hpid
        exact h.queuing q _ m hr (beq_self_eq_true m)
  picked := fun p q m hp => by
    rcases pc_before hstep hp with hp | ⟨k, -, hk⟩ | ⟨c, rfl, hc, htarget⟩
    · exact h.picked p q m hp
    · have haside := aside_entry k
      rw [show entry k = _ from hk] at haside
      cases haside
    · obtain ⟨rfl, hv⟩ : c = .signalShift m ∧ _ := comesFrom_target htarget
      have hpos : 0 < (s.mem.mutexes m).numWaiters := by
        have := h.nonempty p m hc
        have := h.count m
        omega
      have hin : P.pid q ∈ (s.mem.mutexes m).queue := by
        rw [queue_shift hpos, hv]
        exact List.mem_cons_self
      exact (h.queued q m hin).symm.trans (h.queuing p _ m hc (beq_self_eq_true m))

end Step

theorem BlockedOn.ne_of_executed (h : BlockedOn s q m) (hc : s.pc p = some c)
    (hx : Executed s p (code P p c) t) : q ≠ p := by
  rintro rfl
  obtain ⟨hasleep, hpc⟩ := h
  rw [hc] at hpc
  rcases hpc with hpc | hpc
  all_goals
    cases hpc
    cases hx with
    | resume _ isReady => simp [hasleep] at isReady

omit [DecidableEq ι] in
theorem BlockedOn.worksOn (h : BlockedOn s q m) : ∃ c, s.pc q = some c ∧ worksOn m c = true := by
  rcases h.2 with hq | hq <;> exact ⟨_, hq, beq_self_eq_true m⟩

/-- A process blocked on a mutex of another namespace is woken by `kill` at most. -/
theorem Apart.stays_blocked (h : Apart P s) (hc : s.pc r = some c) (hx : Executed s r (code P r c) t)
    (hkill : ∀ pid, c ≠ .killFind pid) (hm : Foreign P s r m) (hq : BlockedOn s q m) :
    (t.mem.proc q).state = .sleeping := by
  by_contra hwoken
  have hchanged : (t.mem.proc q).state ≠ (s.mem.proc q).state := by rwa [hq.1]
  rcases (woken_by hx (hq.ne_of_executed hc hx) hchanged).2 with ⟨k, rfl, hchan⟩ | ⟨k, rfl⟩ | rfl
  · rw [h.chan q] at hchan
    rcases hq.2 with hpc | hpc
    · rw [hpc] at hchan
      cases hchan
      exact h.inside r _ m hc (beq_self_eq_true m) hm
    · rw [hpc] at hchan
      cases hchan
  · obtain ⟨c, hqc, hwork⟩ := hq.worksOn
    exact h.inside q c m hqc hwork ⟨hm.1, h.picked r q k hc ▸ hm.2⟩
  · exact hkill _ rfl

theorem Apart.isolated (h : Apart P s) (hstep : Step (program P) s a t) : Isolated P s a t := by
  intro hkill m hm
  obtain ⟨p, c, rfl, -, rfl⟩ | ⟨p, c, rfl, hc, hx⟩ | ⟨p, c, v, rfl, -, -, rfl⟩ := step_cases hstep
  · exact ⟨rfl, fun q hq => hq.1⟩
  · refine ⟨?_, fun q hq => h.stays_blocked hc hx (fun pid heq => hkill pid (heq ▸ hc)) hm hq⟩
    cases hwork : worksOn m c with
    | true => exact absurd hm (h.inside p c m hc hwork)
    | false =>
      rw [hx.mem_eq]
      exact (mutexes_effect P p s.mem hwork fun hname => hm.1.2 p (hname ▸ hc)).resolve_right hm.1.1
  · exact ⟨rfl, fun q hq => hq.1⟩

omit [DecidableEq ι] in
theorem apart_booted (P : Procs ι) : Apart P (booted ι) where
  toCounted := .of_quiet ⟨fun _ => rfl, fun _ => rfl⟩ (fun _ => rfl) fun _ => rfl
  inside := fun _ _ _ hc => by cases hc
  queuing := fun _ _ _ hc => by cases hc
  queued := fun _ _ hq => by cases hq
  picked := fun _ _ _ hc => by cases hc

/-- Any processes in any namespaces, and any interleaving of the calls in which every step
meets the condition: every step is isolated. -/
theorem mutexes_isolated (P : Procs ι) {as : List (Label ι)} {t : State ι}
    (hrun : Run (Guarded (Step (program P)) (Respects P)) (booted ι) as t) :
    Run (fun s a t => Step (program P) s a t ∧ Isolated P s a t) (booted ι) as t := by
  have hsame : ∀ s a t, Apart P s → (Guarded (Step (program P)) (Respects P) s a t ↔
      Guarded (Step (program P)) (Respects P) s a t ∧ Isolated P s a t) :=
    fun s a t h => ⟨fun hg => ⟨hg, h.isolated hg.2⟩, And.left⟩
  have hboth := (Run.congr_of_invariant (Apart P) hsame (fun s a t h hg => h.step hg.1 hg.2)
    (apart_booted P)).mp hrun
  exact hboth.mono fun s a t h => ⟨h.1.2, h.2⟩

/-! ## Two containers -/

/-- The first two processes run in one container, the third in another. -/
def twoContainers : Procs (Fin 3) where
  slots := [0, 1, 2]
  pid := fun p => p.val + 1
  nameSpace := fun p => if p = 2 then 2 else 1
  pid_injective := threePids_injective

instance (s : State (Fin 3)) (m : Mux) : Decidable (InUse s m) := inferInstanceAs (Decidable (_ ∧ _))

instance (P : Procs (Fin 3)) (s : State (Fin 3)) (p : Fin 3) (m : Mux) : Decidable (Foreign P s p m) :=
  inferInstanceAs (Decidable (_ ∧ _))

instance (s : State (Fin 3)) (q : Fin 3) (m : Mux) : Decidable (BlockedOn s q m) :=
  inferInstanceAs (Decidable (_ ∧ _))

instance (P : Procs (Fin 3)) (s : State (Fin 3)) (a : Label (Fin 3)) : Decidable (Respects P s a) :=
  match a with
  | .call _ (.mutexDelete _) | .call _ (.mutexUnlock _) | .call _ (.cvWait _) | .call _ (.cvSignal _) =>
    inferInstanceAs (Decidable (∀ _ : Mux, _ → _))
  | .call _ .mutexCreate | .call _ (.mutexLock _) | .call _ (.kill _) | .ret _ _ => .isTrue trivial
  | .step _ => inferInstanceAs (Decidable (∀ _ : Mux, _ → ∀ _ : Fin 3, _ → _ ∧ _))

/-- The first process creates a mutex, the second waits on it. -/
def oneWaiting : List (Label (Fin 3)) :=
  .call 0 .mutexCreate :: steps 0 4 ++ [.ret 0 0, .call 1 (.cvWait 0)] ++ steps 1 9

/-- The third process is refused that mutex and locks one of its own; then the first process
wakes the second. -/
theorem mutexes_isolated_two :
    ∃ t, Run (fun s a t => Step (program twoContainers) s a t ∧ Isolated twoContainers s a t)
        (booted (Fin 3)) (oneWaiting ++ .call 2 (.mutexLock 0) :: steps 2 2 ++ .ret 2 (-2) ::
          .call 2 .mutexCreate :: steps 2 5 ++ .ret 2 1 :: .call 2 (.mutexLock 1) :: steps 2 9 ++
          .ret 2 1 :: .call 0 (.cvSignal 0) :: steps 0 7) t ∧
      (t.mem.mutexes 1).nameSpace = 2 ∧ (t.mem.mutexes 1).pid = 3 ∧ (t.mem.proc 1).state = .runnable :=
  (Run.foundOk id _ (by decide +kernel) fun _ hguard h =>
    And.intro (mutexes_isolated twoContainers hguard) h).imp fun _ h => h.2

/-- The first process creates a mutex and the second waits on it; `cv_signal` from the other
container shortens the wait queue and wakes the second. -/
theorem cv_signal_crosses_namespaces :
    ∃ s t, Run (Step (program twoContainers)) (booted (Fin 3)) oneWaiting s ∧
      Foreign twoContainers s 2 0 ∧ BlockedOn s 1 0 ∧
      Run (Step (program twoContainers)) s (.call 2 (.cvSignal 0) :: (steps 2 7 ++ [.ret 2 1])) t ∧
      (s.mem.mutexes 0).numWaiters = 1 ∧ (t.mem.mutexes 0).numWaiters = 0 ∧
      (t.mem.proc 1).state = .runnable := by
  simp only [exists_and_left]
  exact Run.found id (fun s => Foreign twoContainers s 2 0 ∧ BlockedOn s 1 0 ∧
    (execute (step (program twoContainers)) s (.call 2 (.cvSignal 0) :: (steps 2 7 ++ [.ret 2 1]))).any
      fun t => (s.mem.mutexes 0).numWaiters = 1 ∧ (t.mem.mutexes 0).numWaiters = 0 ∧
        (t.mem.proc 1).state = .runnable) (by decide +kernel)
    fun s _ h => ⟨h.1, h.2.1, Run.found id _ h.2.2 fun _ _ h => h⟩

end Xv6.Sync
