import Mathlib.Data.Fintype.Basic
import Xv6.Sync.Wakeups

/-! # The waiters of a condition variable

`waiters` holds pids and the processes they name are put to sleep and woken by separate
writes, under `ptable.lock`. The array itself is a queue whatever happens. That its pids
are those of the processes blocked in `cv_wait` depends on `kill`, which makes a blocked
process `RUNNABLE` and leaves its pid in the array.
-/

namespace Xv6.Sync

open Function
open Lib Lib.Spin

variable {ι : Type} [DecidableEq ι]

variable {c : Pc} {m : Mux} {q p r : ι} {v : Int} {P : Procs ι} {s : State ι} {a : Label ι}

/-! ## The array -/

def Mutex.queue (x : Mutex) : List Int :=
  (List.range x.numWaiters.toNat).map x.waiters

theorem queue_enqueue {x : Mutex} (h : 0 ≤ x.numWaiters) (pid : Int) :
    { x with
      waiters := update x.waiters x.numWaiters.toNat pid
      numWaiters := x.numWaiters + 1 }.queue = x.queue ++ [pid] := by
  have hnum : (x.numWaiters + 1).toNat = x.numWaiters.toNat + 1 := by omega
  simp only [Mutex.queue, hnum, List.range_succ, List.map_append, List.map_cons, List.map_nil,
    update_self]
  congr 1
  refine List.map_congr_left fun i hi => update_of_ne ?_ _ _
  exact Nat.ne_of_lt (List.mem_range.mp hi)

theorem queue_shift {x : Mutex} (h : 0 < x.numWaiters) :
    x.queue = x.waiters 0 :: (shiftWaiters x).queue := by
  have hnum : x.numWaiters.toNat = (x.numWaiters - 1).toNat + 1 := by omega
  simp only [Mutex.queue, hnum, List.range_succ_eq_map, List.map_cons, List.map_map, shiftWaiters]
  congr 1
  refine List.map_congr_left fun i hi => ?_
  have := List.mem_range.mp hi
  rw [if_pos (by omega)]
  rfl

theorem cv_effect (P : Procs ι) (p : ι) (x : Mem ι) (henq : c ≠ .cvEnqueue m) (hshift : c ≠ .signalShift m) :
    (((code P p c).effect x).mutexes m).queue = (x.mutexes m).queue ∧
      (((code P p c).effect x).mutexes m).numWaiters = (x.mutexes m).numWaiters := by
  cases c with
  | createScan i =>
    rcases effect_createScan P p i x with heq | ⟨k, -, heq⟩
    · rw [heq]
      exact ⟨rfl, rfl⟩
    · rw [heq, Mem.mutex_mutexes]
      split <;> exact ⟨rfl, rfl⟩
  | cvEnqueue k =>
    have hk : k ≠ m := fun h => henq (h ▸ rfl)
    simp [code, Instr.effect, Mem.mutex_mutexes, hk]
  | signalShift k =>
    have hk : k ≠ m := fun h => hshift (h ▸ rfl)
    simp [code, Instr.effect, Mem.mutex_mutexes, hk]
  | _ =>
    simp only [code, Instr.effect, Mem.mutex_mutexes, Mem.update_mutexes, Mem.wakeup1_mutexes,
      Mem.wakePid_mutexes, Mem.kill_mutexes, id_eq, and_self]
    try split
    all_goals exact ⟨rfl, rfl⟩

/-! ## Who is queued -/

def Blocked (s : State ι) (p : ι) (m : Mux) : Prop :=
  s.pc p = some (.cvWait m) ∧ (s.mem.proc p).state = .sleeping

/-- On the way from the write into the array to `sched`, or blocked. -/
def Enqueued (s : State ι) (p : ι) (m : Mux) : Prop :=
  s.pc p = some (.cvMark m) ∨ s.pc p = some (.cvRelease m) ∨ s.pc p = some (.cvSched m) ∨
    Blocked s p m

/-- The points of `sleep` at which `chan` is set. -/
def sleepsOn : Pc → Option Mux
  | .sleepSched m | .sleepWait m | .sleepWake m => some m
  | _ => none

/-- `kill` finds a process that is blocked in `cv_wait`. -/
def Strays (P : Procs ι) (s : State ι) (a : Label ι) : Prop :=
  ∃ r q m, a = .step r ∧ s.pc r = some (.killFind (P.pid q)) ∧ Blocked s q m

/-- A `cv_signal` has taken `v` out of the array and not yet woken its process. -/
def Halfway (s : State ι) (m : Mux) (v : Int) : Prop :=
  ∃ r, s.pc r = some (.signalWake m v)

/-- What holds of the locks, the counters and `chan` whatever `kill` does. -/
structure Counted (s : State ι) : Prop where
  owned : Owned locksAt s
  count : ∀ m, 0 ≤ (s.mem.mutexes m).numWaiters
  nonempty : ∀ r m, s.pc r = some (.signalShift m) → (s.mem.mutexes m).numWaiters ≠ 0
  chan : ∀ p, (s.mem.proc p).chan = (s.pc p).bind sleepsOn

omit [DecidableEq ι] in
theorem Counted.of_quiet (h : Quiet s) (hchan : ∀ p, (s.mem.proc p).chan = none)
    (hempty : ∀ m, (s.mem.mutexes m).numWaiters = 0) : Counted s where
  owned := fun p c hc => by simp [h.1 p] at hc
  count := fun m => by simp [hempty m]
  nonempty := fun r m hr => by simp [h.1 r] at hr
  chan := fun p => by simp [hchan p, h.1 p]

/-- The array and the processes agree, up to a `cv_signal` between its two writes. -/
structure Lined (P : Procs ι) (s : State ι) : Prop extends Counted s where
  marked : ∀ p m, s.pc p = some (.cvRelease m) ∨ s.pc p = some (.cvSched m) →
    (s.mem.proc p).state = .sleeping
  nodup : ∀ m, (s.mem.mutexes m).queue.Nodup
  named : ∀ m, ∀ v ∈ (s.mem.mutexes m).queue, ∃ p, P.pid p = v
  lined : ∀ p m, P.pid p ∈ (s.mem.mutexes m).queue ↔
    Enqueued s p m ∧ ¬ Halfway s m (P.pid p)
  picked : ∀ m v, Halfway s m v → ∃ q, P.pid q = v ∧ Blocked s q m

/-! ## One instruction -/

omit [DecidableEq ι] in
/-- The search of a table for the one entry that fits. -/
theorem find_eq_self {l : List ι} {f : ι → Bool} (hmem : q ∈ l) (hq : f q = true)
    (hone : ∀ x, f x = true → x = q) : l.find? f = some q := by
  obtain ⟨x, hx⟩ := Option.isSome_iff_exists.mp (List.find?_isSome.mpr ⟨q, hmem, hq⟩)
  rw [hx, hone x (List.find?_some hx)]

section Instruction

variable {P : Procs ι} {s t : State ι} {r : ι} {c : Pc}

/-- A process that is blocked takes no instruction. -/
theorem Blocked.ne_of_executed (hc : s.pc r = some c) (hx : Executed s r (code P r c) t) (h : Blocked s q m) :
    q ≠ r := by
  rintro rfl
  obtain ⟨hpc, hs⟩ := h
  rw [hc, Option.some.injEq] at hpc
  subst hpc
  cases hx with
  | resume _ isReady => simp [hs] at isReady

theorem signalWake_self (hx : Executed s r (code P r c) t) :
    t.pc r = some (.signalWake m v) ↔ c = .signalShift m ∧ v = (s.mem.mutexes m).waiters 0 := by
  refine ⟨fun h => comesFrom hx h, ?_⟩
  rintro ⟨rfl, rfl⟩
  obtain ⟨c', htarget, hpc⟩ := hx.target_isSome
  rw [hpc, update_self, ← htarget]
  rfl

theorem chan_executed (hx : Executed s r (code P r c) t) (h : (s.mem.proc r).chan = sleepsOn c) :
    (t.mem.proc r).chan = (t.pc r).bind sleepsOn := by
  obtain ⟨c', htarget, hpc⟩ := hx.target_isSome
  rw [hx.mem_eq, chan_effect, hpc, update_self, h]
  cases c with
  | createScan i => rcases target_createScan htarget with ⟨k, rfl⟩ | rfl | rfl <;> rfl
  | _ =>
    simp only [code, Instr.target, Option.some.injEq, reduceCtorEq] at htarget
    try subst htarget
    first | done | rfl | (dsimp only; split <;> rfl)

theorem queue_executed (h : Counted s) (hc : s.pc r = some c) (hx : Executed s r (code P r c) t) (m : Mux) :
    (c = .cvEnqueue m ∧
        (t.mem.mutexes m).queue = (s.mem.mutexes m).queue ++ [P.pid r] ∧
        (t.mem.mutexes m).numWaiters = (s.mem.mutexes m).numWaiters + 1) ∨
      (c = .signalShift m ∧
        (s.mem.mutexes m).queue = (s.mem.mutexes m).waiters 0 :: (t.mem.mutexes m).queue ∧
        (t.mem.mutexes m).numWaiters = (s.mem.mutexes m).numWaiters - 1) ∨
      (c ≠ .cvEnqueue m ∧ c ≠ .signalShift m ∧
        (t.mem.mutexes m).queue = (s.mem.mutexes m).queue ∧
        (t.mem.mutexes m).numWaiters = (s.mem.mutexes m).numWaiters) := by
  have hmem : t.mem = (code P r c).effect s.mem := hx.mem_eq
  have hcount := h.count m
  by_cases henq : c = .cvEnqueue m
  · subst henq
    have hm : t.mem.mutexes m = { s.mem.mutexes m with
        waiters := update (s.mem.mutexes m).waiters
          (s.mem.mutexes m).numWaiters.toNat (P.pid r)
        numWaiters := (s.mem.mutexes m).numWaiters + 1 } := by
      rw [hmem]
      exact update_self ..
    rw [hm]
    exact .inl ⟨rfl, queue_enqueue hcount _, rfl⟩
  · by_cases hshift : c = .signalShift m
    · subst hshift
      have hm : t.mem.mutexes m = shiftWaiters (s.mem.mutexes m) := by
        rw [hmem]
        exact update_self ..
      have hpos : 0 < (s.mem.mutexes m).numWaiters := by
        have := h.nonempty r m hc
        omega
      rw [hm]
      exact .inr (.inl ⟨rfl, queue_shift hpos, rfl⟩)
    · rw [hmem]
      exact .inr (.inr ⟨henq, hshift, cv_effect P r s.mem henq hshift⟩)

theorem Counted.executed (h : Counted s) (howned : Owned locksAt t) (hc : s.pc r = some c)
    (hx : Executed s r (code P r c) t) : Counted t where
  owned := howned
  count := fun m => by
    have hcount := h.count m
    rcases queue_executed h hc hx m with ⟨-, -, hnum⟩ | ⟨rfl, -, hnum⟩ | ⟨-, -, -, hnum⟩
    · omega
    · have := h.nonempty r m hc
      omega
    · omega
  nonempty := fun q m hq => by
    have hsame : (c = .cvEnqueue m ∨ c = .signalShift m → False) →
        (s.mem.mutexes m).numWaiters ≠ 0 → (t.mem.mutexes m).numWaiters ≠ 0 := by
      intro hnot hnum
      rcases queue_executed h hc hx m with ⟨heq, -⟩ | ⟨heq, -⟩ | ⟨-, -, -, hkeep⟩
      · exact absurd (.inl heq) hnot
      · exact absurd (.inr heq) hnot
      · rwa [hkeep]
    by_cases hqr : q = r
    · subst hqr
      obtain ⟨rfl, hnum⟩ : c = .signalTest m ∧ _ := comesFrom hx hq
      exact hsame (by simp) hnum
    rw [(owner_frame hx hqr).2] at hq
    refine hsame ?_ (h.nonempty q m hq)
    rintro (rfl | rfl)
    · exact hqr (h.owned.unique hq hc (l := .ptable) (by simp [locksAt]) (by simp [locksAt]))
    · exact hqr (h.owned.unique hq hc (l := .ptable) (by simp [locksAt]) (by simp [locksAt]))
  chan := fun p => by
    by_cases hpr : p = r
    · subst hpr
      exact chan_executed hx (by rw [h.chan, hc]; rfl)
    · rw [hx.mem_eq, chan_effect_of_ne P c s.mem hpr, (owner_frame hx hpr).2]
      exact h.chan p

omit [DecidableEq ι] in
/-- The process that is about to enter the array is not in it. -/
theorem Lined.fresh (h : Lined P s) {k : Mux} (hc : s.pc r = some (.cvEnqueue m)) :
    P.pid r ∉ (s.mem.mutexes k).queue := by
  intro hmem
  have hin := ((h.lined r k).mp hmem).1
  simp [Enqueued, Blocked, hc] at hin

omit [DecidableEq ι] in
/-- Under `ptable.lock` a process in the array is blocked. -/
theorem Lined.blocked (h : Lined P s) (hq : P.pid q ∈ (s.mem.mutexes m).queue) (hc : s.pc r = some c)
    (hptable : .ptable ∈ locksAt c) (hnot : ∀ k, c ≠ .cvMark k ∧ c ≠ .cvRelease k ∧ c ≠ .cvSched k) :
    Blocked s q m := by
  have hother : ∀ k, .ptable ∈ locksAt k → s.pc q = some k → c = k := by
    intro k hk hpc
    obtain rfl := h.owned.unique hpc hc hk hptable
    exact Option.some.inj (hc.symm.trans hpc)
  rcases ((h.lined q m).mp hq).1 with hpc | hpc | hpc | hb
  · exact absurd (hother _ (by simp [locksAt]) hpc) (hnot m).1
  · exact absurd (hother _ (by simp [locksAt]) hpc) (hnot m).2.1
  · exact absurd (hother _ (by simp [locksAt]) hpc) (hnot m).2.2
  · exact hb

omit [DecidableEq ι] in
theorem Lined.not_halfway (h : Lined P s) (hc : s.pc r = some c) (hptable : .ptable ∈ locksAt c)
    (hnot : c ≠ .signalWake m v) : ¬ Halfway s m v := by
  rintro ⟨q, hq⟩
  obtain rfl := h.owned.unique hq hc (by simp [locksAt]) hptable
  exact hnot (Option.some.inj (hc.symm.trans hq))

omit [DecidableEq ι] in
/-- The pid a `cv_signal` is about to wake is in no other queue. -/
theorem Lined.signalWake_mux (h : Lined P s) {k : Mux} (hc : s.pc r = some (.signalWake k (P.pid p)))
    (he : Enqueued s p m) : k = m := by
  obtain ⟨q, hpid, hb⟩ := h.picked k _ ⟨r, hc⟩
  obtain rfl := P.pid_injective hpid
  simp only [Enqueued, Blocked, hb.1, Option.some.injEq, reduceCtorEq, Pc.cvWait.injEq,
    false_or] at he
  exact he.1

section Moves

variable (h : Lined P s) (hc : s.pc r = some c) (hx : Executed s r (code P r c) t)

include h hc hx

/-- Without a stray `kill`, only `cv_signal` wakes a blocked process. -/
theorem Blocked.executed (hok : ¬ Strays P s (.step r)) (hq : Blocked s q m)
    (hsignal : ∀ k, c ≠ .signalWake k (P.pid q)) :
    Blocked t q m := by
  have hne := hq.ne_of_executed hc hx
  refine ⟨(owner_frame hx hne).2.trans hq.1, ?_⟩
  by_contra hwoken
  have hchanged : (t.mem.proc q).state ≠ (s.mem.proc q).state := by rwa [hq.2]
  rcases (woken_by hx hne hchanged).2 with ⟨k, -, hchan⟩ | ⟨k, hk⟩ | hkill
  · rw [h.chan q, hq.1] at hchan
    cases hchan
  · exact hsignal k hk
  · exact hok ⟨r, q, m, rfl, hkill ▸ hc, hq⟩

theorem enqueued_self (m : Mux) : Enqueued t r m ↔ Enqueued s r m ∨ c = .cvEnqueue m := by
  obtain ⟨c', htarget, hpc⟩ := hx.target_isSome
  have hself : t.pc r = some c' := by rw [hpc, update_self]
  have hmem := hx.mem_eq
  have hnot : Blocked s r m → False := fun hb => hb.ne_of_executed hc hx rfl
  simp only [Enqueued, iff_false_intro hnot, or_false]
  simp only [Blocked, hself, hc, Option.some.injEq]
  cases c with
  | cvSched k =>
    cases htarget
    have hs := h.marked r k (.inr hc)
    rw [hmem]
    simpa [code, Instr.effect] using fun _ => hs
  | createScan i => rcases target_createScan htarget with ⟨k, rfl⟩ | rfl | rfl <;> simp
  | _ =>
    simp only [code, Instr.target, Option.some.injEq, reduceCtorEq] at htarget
    try subst htarget
    try split
    all_goals simp

theorem marked_self (hpoint : t.pc r = some (.cvRelease m) ∨ t.pc r = some (.cvSched m)) :
    (t.mem.proc r).state = .sleeping := by
  rcases hpoint with hpoint | hpoint
  · obtain rfl : c = .cvMark m := comesFrom hx hpoint
    simp [hx.mem_eq, code, Instr.effect, Mem.update]
  · obtain rfl : c = .cvRelease m := comesFrom hx hpoint
    rw [hx.mem_eq]
    exact h.marked r m (.inl hc)

theorem halfway_executed (m : Mux) (v : Int) :
    Halfway t m v ↔ (Halfway s m v ∧ c ≠ .signalWake m v) ∨
      (c = .signalShift m ∧ v = (s.mem.mutexes m).waiters 0) := by
  have hother : ∀ q, q ≠ r → t.pc q = s.pc q := fun q hq => (owner_frame hx hq).2
  rw [← signalWake_self hx]
  constructor
  · rintro ⟨q, hq⟩
    by_cases hqr : q = r
    · exact .inr (hqr ▸ hq)
    · rw [hother q hqr] at hq
      refine .inl ⟨⟨q, hq⟩, ?_⟩
      rintro rfl
      exact hqr (h.owned.unique hq hc (l := .ptable) (by simp [locksAt]) (by simp [locksAt]))
  · rintro (⟨⟨q, hq⟩, hnot⟩ | hself)
    · refine ⟨q, (hother q ?_).trans hq⟩
      rintro rfl
      exact hnot (Option.some.inj (hc.symm.trans hq))
    · exact ⟨r, hself⟩

/-- A chosen process is blocked until it is woken. -/
theorem picked_executed (hok : ¬ Strays P s (.step r)) (m : Mux) (v : Int)
    (hhalf : Halfway t m v) : ∃ q, P.pid q = v ∧ Blocked t q m := by
  rcases (halfway_executed h hc hx m v).mp hhalf with ⟨hbefore, hnot⟩ | ⟨rfl, rfl⟩
  · obtain ⟨q, rfl, hb⟩ := h.picked m v hbefore
    refine ⟨q, rfl, hb.executed h hc hx hok ?_⟩
    rintro k rfl
    exact h.not_halfway hc (by simp [locksAt]) hnot hbefore
  rcases queue_executed h.toCounted hc hx m with ⟨heq, -⟩ | ⟨-, hqueue, -⟩ | ⟨-, hne, -⟩
  · cases heq
  · have hin : (s.mem.mutexes m).waiters 0 ∈ (s.mem.mutexes m).queue := by
      rw [hqueue]
      exact List.mem_cons_self
    obtain ⟨q, hq⟩ := h.named m _ hin
    rw [← hq] at hin
    have hb := h.blocked hin hc (by simp [locksAt]) fun k => by simp
    exact ⟨q, hq, hb.executed h hc hx hok fun k => by simp⟩
  · exact absurd rfl hne

variable (hok : ¬ Strays P s (.step r)) (hslots : ∀ q, q ∈ P.slots)

include hok hslots

theorem enqueued_other (hne : q ≠ r) (m : Mux) :
    Enqueued t q m ↔ Enqueued s q m ∧ ∀ k, c ≠ .signalWake k (P.pid q) := by
  have hother : t.pc q = s.pc q := (owner_frame hx hne).2
  constructor
  · intro hq
    refine ⟨?_, ?_⟩
    · simp only [Enqueued, Blocked, hother] at hq ⊢
      refine hq.imp id (Or.imp id (Or.imp id ?_))
      exact fun hb => ⟨hb.1, sleeping_of_executed hx hne hb.2⟩
    rintro k rfl
    obtain ⟨q', hpid, hb⟩ := h.picked k _ ⟨r, hc⟩
    obtain rfl := P.pid_injective hpid
    have hwoken : (t.mem.proc q').state = .runnable := by
      have hfind : (P.slots.find? fun x => P.pid x == P.pid q' && (s.mem.proc x).state == .sleeping)
          = some q' := find_eq_self (hslots q') (by simp [hb.2]) fun x hx => by
        simp only [Bool.and_eq_true, beq_iff_eq] at hx
        exact P.pid_injective hx.1
      rw [hx.mem_eq]
      simp [code, Instr.effect, Mem.wakePid, hfind, Mem.update]
    simp only [Enqueued, Blocked, hother, hb.1, hwoken, reduceCtorEq, Option.some.injEq, and_false,
      or_self] at hq
  · rintro ⟨hq, hsignal⟩
    simp only [Enqueued, hother] at hq ⊢
    refine hq.imp id (Or.imp id (Or.imp id ?_))
    exact fun hb => hb.executed h hc hx hok hsignal

theorem enqueued_executed (p : ι) (m : Mux) :
    Enqueued t p m ↔
      (Enqueued s p m ∧ ∀ k, c ≠ .signalWake k (P.pid p)) ∨ p = r ∧ c = .cvEnqueue m := by
  by_cases hpr : p = r
  · subst hpr
    rw [enqueued_self h hc hx]
    simp only [true_and]
    refine ⟨fun hq => hq.imp (fun he => ⟨he, ?_⟩) id, fun hq => hq.imp And.left id⟩
    rintro k rfl
    simp [Enqueued, Blocked, hc] at he
  · rw [enqueued_other h hc hx hok hslots hpr]
    simp [hpr]

/-- After the instruction, whose pid is in the array. -/
theorem lined_executed (p : ι) (m : Mux) :
    P.pid p ∈ (t.mem.mutexes m).queue ↔ Enqueued t p m ∧ ¬ Halfway t m (P.pid p) := by
  have hlined := h.lined p m
  rw [enqueued_executed h hc hx hok hslots, halfway_executed h hc hx]
  rcases queue_executed h.toCounted hc hx m with ⟨rfl, hqueue, -⟩ | ⟨rfl, hqueue, -⟩ | ⟨hne, hne', hqueue, -⟩
  · have hhalf : ¬ Halfway s m (P.pid p) := h.not_halfway hc (by simp [locksAt]) (by simp)
    have hinj : P.pid p = P.pid r ↔ p = r := ⟨fun e => P.pid_injective e, fun e => e ▸ rfl⟩
    simp [hqueue, hlined, hinj, hhalf]
  · have hnodup := h.nodup m
    rw [hqueue] at hlined hnodup
    have hhead := (List.nodup_cons.mp hnodup).1
    simp only [List.mem_cons] at hlined
    simp only [ne_eq, reduceCtorEq, not_false_eq_true, implies_true, and_true, and_false, or_false,
      true_and, not_or]
    constructor
    · intro hin
      have hboth := hlined.mp (.inr hin)
      exact ⟨hboth.1, hboth.2, fun heq => hhead (heq ▸ hin)⟩
    · rintro ⟨he, hrest, hnot⟩
      exact (hlined.mpr ⟨he, hrest⟩).resolve_left hnot
  · rw [hqueue, hlined]
    simp only [hne, hne', and_false, false_and, or_false]
    constructor
    · rintro ⟨he, hhalf⟩
      refine ⟨⟨he, ?_⟩, fun hboth => hhalf hboth.1⟩
      rintro k rfl
      obtain rfl := h.signalWake_mux hc he
      exact hhalf ⟨r, hc⟩
    · rintro ⟨⟨he, hsignal⟩, hhalf⟩
      exact ⟨he, fun hh => hhalf ⟨hh, hsignal m⟩⟩

end Moves

theorem Lined.executed (hslots : ∀ q, q ∈ P.slots) (h : Lined P s) (howned : Owned locksAt t)
    (hc : s.pc r = some c) (hx : Executed s r (code P r c) t) (hok : ¬ Strays P s (.step r)) : Lined P t where
  toCounted := h.toCounted.executed howned hc hx
  marked := fun p m hp => by
    by_cases hpr : p = r
    · subst hpr
      exact marked_self h hc hx hp
    rw [(owner_frame hx hpr).2] at hp
    have hs := h.marked p m hp
    by_contra hne
    -- whoever wakes a process holds `ptable.lock`, and so does this one
    have hptable : s.owner .ptable = some p := by
      rcases hp with hp | hp <;> exact h.owned p _ hp _ (by simp [locksAt])
    have hlocked : .ptable ∈ locksAt c := by
      have hchanged : (t.mem.proc p).state ≠ (s.mem.proc p).state := by rwa [hs]
      rcases (woken_by hx hpr hchanged).2 with ⟨k, rfl, -⟩ | ⟨k, rfl⟩ | rfl
      all_goals simp [locksAt]
    have hboth := hptable.symm.trans (h.owned r c hc _ hlocked)
    exact hpr (Option.some.inj hboth)
  nodup := fun m => by
    have hnodup := h.nodup m
    rcases queue_executed h.toCounted hc hx m with ⟨rfl, hqueue, -⟩ | ⟨-, hqueue, -⟩ | ⟨-, -, hqueue, -⟩
    · rw [hqueue]
      exact hnodup.append (List.nodup_singleton _) (by simpa using h.fresh hc)
    · rw [hqueue] at hnodup
      exact (List.nodup_cons.mp hnodup).2
    · rwa [hqueue]
  named := fun m v hv => by
    rcases queue_executed h.toCounted hc hx m with ⟨-, hqueue, -⟩ | ⟨-, hqueue, -⟩ | ⟨-, -, hqueue, -⟩
    · rw [hqueue, List.mem_append, List.mem_singleton] at hv
      rcases hv with hv | rfl
      · exact h.named m v hv
      · exact ⟨r, rfl⟩
    · exact h.named m v (by rw [hqueue]; exact List.mem_cons_of_mem _ hv)
    · exact h.named m v (hqueue ▸ hv)
  lined := lined_executed h hc hx hok hslots
  picked := picked_executed h hc hx hok

end Instruction

/-! ## Calls and returns -/

theorem not_aside_of_sleepsOn (h : sleepsOn c = some m) : aside c = false := by
  cases c <;> first | rfl | cases h

omit [DecidableEq ι] in
theorem Counted.unmoved {t : State ι} (h : Counted s) (howned : Owned locksAt t) (hu : Unmoved aside s t) :
    Counted t where
  owned := howned
  count := fun m => hu.mem ▸ h.count m
  nonempty := fun r m hr => by
    rw [hu.mem]
    exact h.nonempty r m ((hu.pc r _ rfl).mp hr)
  chan := fun p => by
    rw [hu.mem, h.chan p]
    ext m
    simp only [Option.bind_eq_some_iff]
    refine exists_congr fun c => and_congr_left fun hc => ?_
    exact (hu.pc p c (not_aside_of_sleepsOn hc)).symm

theorem Counted.step {t : State ι} (h : Counted s) (hstep : Step (program P) s a t) : Counted t := by
  have howned := h.owned.step (program_annotated P) hstep
  rcases executed_or_unmoved aside_entry (fun _ _ _ => aside_ret) hstep with ⟨r, c, -, hc, hx⟩ | hu
  · exact h.executed howned hc hx
  · exact h.unmoved howned hu

omit [DecidableEq ι] in
theorem Lined.unmoved {t : State ι} (h : Lined P s) (howned : Owned locksAt t) (hu : Unmoved aside s t) :
    Lined P t := by
  have henq : ∀ p m, Enqueued t p m ↔ Enqueued s p m := by
    intro p m
    simp only [Enqueued, Blocked, hu.mem, hu.pc p (.cvMark m) rfl, hu.pc p (.cvRelease m) rfl,
      hu.pc p (.cvSched m) rfl, hu.pc p (.cvWait m) rfl]
  have hhalf : ∀ m v, Halfway t m v ↔ Halfway s m v := by
    intro m v
    simp only [Halfway, hu.pc _ (.signalWake m v) rfl]
  refine ⟨h.toCounted.unmoved howned hu, fun p m hp => ?_, fun m => ?_, fun m v hv => ?_,
    fun p m => ?_, fun m v hv => ?_⟩
  · rw [hu.mem]
    exact h.marked p m (hp.imp (hu.pc p _ rfl).mp (hu.pc p _ rfl).mp)
  · exact hu.mem ▸ h.nodup m
  · rw [hu.mem] at hv
    exact h.named m v hv
  · rw [hu.mem, henq, hhalf]
    exact h.lined p m
  · obtain ⟨p, hpid, hb⟩ := h.picked m v ((hhalf m v).mp hv)
    exact ⟨p, hpid, (hu.pc p _ rfl).mpr hb.1, hu.mem ▸ hb.2⟩

theorem Lined.step (hslots : ∀ q, q ∈ P.slots) {t : State ι} (h : Lined P s) (hok : ¬ Strays P s a)
    (hstep : Step (program P) s a t) : Lined P t := by
  have howned := h.owned.step (program_annotated P) hstep
  rcases executed_or_unmoved aside_entry (fun _ _ _ => aside_ret) hstep with ⟨r, c, rfl, hc, hx⟩ | hu
  · exact h.executed hslots howned hc hx hok
  · exact h.unmoved howned hu

/-! ## The journal of a run -/

/-- The state with the processes that entered each queue and the pids that `cv_signal` took
out of it, both in order. -/
structure Journal (ι : Type) where
  state : State ι
  arrived : Mux → List ι
  chosen : Mux → List Int

def Journal.arrive (x : Journal ι) (a : Label ι) : Mux → List ι :=
  match a with
  | .step p =>
    match x.state.pc p with
    | some (.cvEnqueue m) => update x.arrived m (x.arrived m ++ [p])
    | _ => x.arrived
  | _ => x.arrived

def Journal.choose (x : Journal ι) (a : Label ι) : Mux → List Int :=
  match a with
  | .step p =>
    match x.state.pc p with
    | some (.signalShift m) =>
      update x.chosen m (x.chosen m ++ [(x.state.mem.mutexes m).waiters 0])
    | _ => x.chosen
  | _ => x.chosen

def Journal.step (P : Procs ι) (x : Journal ι) (a : Label ι) : Option (Journal ι) :=
  (Spin.step (program P) x.state a).map fun t => ⟨t, x.arrive a, x.choose a⟩

abbrev Journal.Step (P : Procs ι) (x : Journal ι) (a : Label ι) (y : Journal ι) : Prop :=
  x.step P a = some y

variable {x y : Journal ι}

theorem Journal.step_inv (h : Journal.Step P x a y) :
    Spin.Step (program P) x.state a y.state ∧ y.arrived = x.arrive a ∧ y.chosen = x.choose a := by
  obtain ⟨t, ht, rfl⟩ := Option.map_eq_some_iff.mp h
  exact ⟨ht, rfl, rfl⟩

omit [DecidableEq ι] in
theorem arrive_step (hc : x.state.pc p = some c) (m : Mux) :
    x.arrive (.step p) m = if c = .cvEnqueue m then x.arrived m ++ [p] else x.arrived m := by
  simp only [Journal.arrive, hc]
  cases c with
  | cvEnqueue k =>
    by_cases hk : k = m
    · subst hk
      simp
    · simp [hk, Ne.symm hk]
  | _ => simp

omit [DecidableEq ι] in
theorem choose_step (hc : x.state.pc p = some c) (m : Mux) : x.choose (.step p) m =
      if c = .signalShift m then x.chosen m ++ [(x.state.mem.mutexes m).waiters 0]
      else x.chosen m := by
  simp only [Journal.choose, hc]
  cases c with
  | signalShift k =>
    by_cases hk : k = m
    · subst hk
      simp
    · simp [hk, Ne.symm hk]
  | _ => simp

/-- The points of `cv_wait` past the write into the array. -/
def admitted (m : Mux) : Pc → Bool
  | .cvMark k | .cvRelease k | .cvSched k | .cvWait k | .cvReacquire k | .cvSet k | .cvSetPid k
  | .cvRecord k | .cvReleaseMux k | .cvReleasePtable k | .cvDone k => k == m
  | _ => false

theorem admitted_entry (k : Call) : admitted m (entry k) = false := by
  have hstarts := starts_entry k
  generalize entry k = c at hstarts
  cases hstarts <;> rfl

theorem admitted_target {c' : Pc} {x : Mem ι} (h : (code P p c).target x = some c')
    (hc' : admitted m c' = true) : admitted m c = true ∨ c = .cvEnqueue m := by
  cases c with
  | createScan i =>
    rcases target_createScan h with ⟨k, rfl⟩ | rfl | rfl <;> cases hc'
  | cvEnqueue k =>
    cases h
    right
    simpa [admitted] using hc'
  | _ =>
    simp only [code, Instr.target, Option.some.injEq, reduceCtorEq] at h
    try subst h
    try split at hc'
    all_goals exact .inl hc'

structure Recorded (P : Procs ι) (x : Journal ι) : Prop where
  lined : Lined P x.state
  order : ∀ m, (x.arrived m).map P.pid = x.chosen m ++ (x.state.mem.mutexes m).queue
  came : ∀ p c m, x.state.pc p = some c → admitted m c = true → p ∈ x.arrived m
  last : ∀ m v, Halfway x.state m v → (x.chosen m).getLast? = some v

/-- An instruction adds to the journal what it does to the array. -/
theorem Recorded.executed (h : Recorded P x) (hc : x.state.pc r = some c)
    (hx : Executed x.state r (code P r c) y.state) (harrived : y.arrived = x.arrive (.step r))
    (hchosen : y.chosen = x.choose (.step r)) (hlined : Lined P y.state) : Recorded P y where
  lined := hlined
  order := fun m => by
    have horder := h.order m
    rw [harrived, hchosen, arrive_step hc, choose_step hc]
    rcases queue_executed h.lined.toCounted hc hx m with ⟨rfl, hqueue, -⟩ | ⟨rfl, hqueue, -⟩ | ⟨hne, hne', hqueue, -⟩
    · rw [if_pos rfl, if_neg (by simp), hqueue, List.map_append, horder, List.append_assoc]
      rfl
    · rw [if_neg (by simp), if_pos rfl, horder, hqueue, List.append_assoc]
      rfl
    · rw [if_neg hne, if_neg hne', horder, hqueue]
  came := fun p k m hk hin => by
    rw [harrived, arrive_step hc]
    have hgrows : p ∈ x.arrived m →
        p ∈ if c = .cvEnqueue m then x.arrived m ++ [r] else x.arrived m := by
      intro hp
      split
      · exact List.mem_append_left _ hp
      · exact hp
    by_cases hpr : p = r
    · subst hpr
      obtain ⟨c', htarget, hpc⟩ := hx.target_isSome
      rw [hpc, update_self, Option.some.injEq] at hk
      rcases admitted_target htarget (hk ▸ hin) with hbefore | rfl
      · exact hgrows (h.came p c m hc hbefore)
      · rw [if_pos rfl]
        exact List.mem_append_right _ (List.mem_singleton_self p)
    · rw [(owner_frame hx hpr).2] at hk
      exact hgrows (h.came p k m hk hin)
  last := fun m v hhalf => by
    rw [hchosen, choose_step hc]
    rcases (halfway_executed h.lined hc hx m v).mp hhalf with ⟨hbefore, -⟩ | ⟨rfl, rfl⟩
    · rw [if_neg]
      · exact h.last m v hbefore
      · rintro rfl
        exact h.lined.not_halfway hc (by simp [locksAt]) (by simp) hbefore
    · rw [if_pos rfl]
      simp

theorem Recorded.step (hslots : ∀ q, q ∈ P.slots) (h : Recorded P x) (hok : ¬ Strays P x.state a)
    (hstep : Journal.Step P x a y) : Recorded P y := by
  obtain ⟨hstate, harrived, hchosen⟩ := Journal.step_inv hstep
  have hlined := h.lined.step hslots hok hstate
  obtain ⟨q, k, rfl, hq, ht⟩ | ⟨q, k, rfl, hq, hx⟩ | ⟨q, k, v, rfl, hq, hcode, ht⟩ :=
    step_cases hstate
  · have hmem : y.state.mem = x.state.mem := by rw [ht]; rfl
    refine ⟨hlined, fun m => ?_, fun p c m hc hin => ?_, fun m v hhalf => ?_⟩
    · rw [harrived, hchosen, hmem]
      exact h.order m
    · rw [ht] at hc
      rw [harrived]
      by_cases hpq : p = q
      · subst hpq
        rw [goto_pc_self, Option.some.injEq] at hc
        rw [← hc, show (program P.toTable).entry k = entry k from rfl, admitted_entry] at hin
        cases hin
      · rw [goto_pc_of_ne hpq] at hc
        exact h.came p c m hc hin
    · rw [hchosen]
      obtain ⟨r, hr⟩ := hhalf
      rw [ht] at hr
      by_cases hrq : r = q
      · subst hrq
        rw [goto_pc_self, Option.some.injEq] at hr
        have haside := aside_entry k
        rw [show entry k = _ from hr] at haside
        cases haside
      · rw [goto_pc_of_ne hrq] at hr
        exact h.last m v ⟨r, hr⟩
  · exact h.executed hq hx harrived hchosen hlined
  · have hmem : y.state.mem = x.state.mem := by rw [ht]
    have hpc : ∀ p c, y.state.pc p = some c → x.state.pc p = some c := by
      intro p c hc
      rw [ht] at hc
      by_cases hpq : p = q
      · subst hpq
        simp at hc
      · simpa [hpq] using hc
    refine ⟨hlined, fun m => ?_, fun p c m hc hin => ?_, fun m v hhalf => ?_⟩
    · rw [harrived, hchosen, hmem]
      exact h.order m
    · rw [harrived]
      exact h.came p c m (hpc p c hc) hin
    · rw [hchosen]
      obtain ⟨r, hr⟩ := hhalf
      exact h.last m v ⟨r, hpc r _ hr⟩

/-! ## The law -/

/-- The pids in the array are those of the blocked processes, each once, in the order in
which they came: what arrived is what `cv_signal` chose, followed by the array. -/
structure QueueLaw (P : Procs ι) (x : Journal ι) : Prop where
  order : ∀ m, (x.arrived m).map P.pid = x.chosen m ++ (x.state.mem.mutexes m).queue
  nodup : ∀ m, (x.state.mem.mutexes m).queue.Nodup
  blocked : ∀ p m, P.pid p ∈ (x.state.mem.mutexes m).queue ↔ Blocked x.state p m

omit [DecidableEq ι] in
theorem Recorded.law (h : Recorded P x) (hfree : x.state.owner .ptable = none) : QueueLaw P x := by
  have hnobody : ∀ p c, x.state.pc p = some c → .ptable ∉ locksAt c := by
    intro p c hc hl
    have howner := h.lined.owned p c hc _ hl
    rw [hfree] at howner
    cases howner
  refine ⟨h.order, h.lined.nodup, fun p m => ?_⟩
  rw [h.lined.lined p m]
  constructor
  · rintro ⟨hpc | hpc | hpc | hb, -⟩
    · exact absurd (by simp [locksAt]) (hnobody p _ hpc)
    · exact absurd (by simp [locksAt]) (hnobody p _ hpc)
    · exact absurd (by simp [locksAt]) (hnobody p _ hpc)
    · exact hb
  · intro hb
    refine ⟨.inr (.inr (.inr hb)), ?_⟩
    rintro ⟨r, hr⟩
    exact absurd (by simp [locksAt]) (hnobody r _ hr)

omit [DecidableEq ι] in
theorem Lined.mem_queue (h : Lined P s) (hq : Blocked s q m) (hc : s.pc r = some c)
    (hptable : .ptable ∈ locksAt c) (hnot : c ≠ .signalWake m (P.pid q)) : P.pid q ∈ (s.mem.mutexes m).queue :=
  (h.lined q m).mpr ⟨.inr (.inr (.inr hq)), h.not_halfway hc hptable hnot⟩

omit [DecidableEq ι] in
/-- `cv_signal` goes on to wake a process exactly when one is blocked. -/
theorem Lined.signalTest (h : Lined P s) (hc : s.pc r = some (.signalTest m)) :
    (s.mem.mutexes m).numWaiters ≠ 0 ↔ ∃ q, Blocked s q m := by
  constructor
  · intro hnum
    have hpos : 0 < (s.mem.mutexes m).numWaiters := by
      have := h.count m
      omega
    have hin : (s.mem.mutexes m).waiters 0 ∈ (s.mem.mutexes m).queue := by
      rw [queue_shift hpos]
      exact List.mem_cons_self
    obtain ⟨q, hq⟩ := h.named m _ hin
    rw [← hq] at hin
    exact ⟨q, h.blocked hin hc (by simp [locksAt]) fun k => by simp⟩
  · rintro ⟨q, hq⟩ hzero
    have hin := h.mem_queue hq hc (by simp [locksAt]) (by simp)
    simp [Mutex.queue, hzero] at hin

/-- `cv_signal` wakes the process that has waited longest, and no other. -/
theorem Recorded.signalWake (hslots : ∀ q, q ∈ P.slots) (h : Recorded P x)
    (hc : x.state.pc r = some (.signalWake m v)) :
    ∃ q earlier later, P.pid q = v ∧ Blocked x.state q m ∧
      x.arrived m = earlier ++ q :: later ∧ x.chosen m = earlier.map P.pid ++ [v] ∧
      (x.state.mem.mutexes m).queue = later.map P.pid ∧
      ∀ y, Journal.Step P x (.step r) y → (y.state.mem.proc q).state = .runnable ∧
        ∀ p, p ≠ q → y.state.mem.proc p = x.state.mem.proc p := by
  obtain ⟨q, hpid, hb⟩ := h.lined.picked m v ⟨r, hc⟩
  obtain ⟨before, hbefore⟩ := List.getLast?_eq_some_iff.mp (h.last m v ⟨r, hc⟩)
  have horder := h.order m
  rw [hbefore, List.append_assoc, List.singleton_append] at horder
  obtain ⟨earlier, rest, harrived, hearlier, hrest⟩ := List.map_eq_append_iff.mp horder
  obtain ⟨q', later, rfl, hq', hlater⟩ := List.map_eq_cons_iff.mp hrest
  obtain rfl : q' = q := P.pid_injective (hq'.trans hpid.symm)
  refine ⟨q', earlier, later, hpid, hb, harrived, by rw [hearlier, hbefore], hlater.symm, ?_⟩
  intro y hy
  have hx := executed_at (Journal.step_inv hy).1 hc
  have hfind : (P.slots.find? fun z => P.pid z == v && (x.state.mem.proc z).state == .sleeping)
      = some q' := find_eq_self (hslots q') (by simp [hpid, hb.2]) fun z hz => by
    simp only [Bool.and_eq_true, beq_iff_eq] at hz
    exact P.pid_injective (hz.1.trans hpid.symm)
  have hmem : y.state.mem =
      x.state.mem.update q' fun z => { z with state := .runnable } := by
    rw [hx.mem_eq]
    simp [program, code, Instr.effect, Mem.wakePid, hfind]
  rw [hmem]
  exact ⟨by simp [Mem.update], fun p hp => Mem.update_proc_of_ne hp _ _⟩

theorem Recorded.cvDone (h : Recorded P x) (hc : x.state.pc p = some (.cvDone m)) :
    p ∈ x.arrived m ∧ (x.chosen m).count (P.pid p) = (x.arrived m).count p := by
  refine ⟨h.came p _ m hc (by simp [admitted]), ?_⟩
  have hout : P.pid p ∉ (x.state.mem.mutexes m).queue := by
    rw [h.lined.lined p m]
    simp [Enqueued, Blocked, hc]
  have hcount := congrArg (List.count (P.pid p)) (h.order m)
  rw [List.count_map_of_injective _ _ P.pid_injective, List.count_append,
    List.count_eq_zero_of_not_mem hout] at hcount
  exact hcount.symm

theorem Recorded.stray (hslots : ∀ q, q ∈ P.slots) (h : Recorded P x) (hstray : Strays P x.state a)
    (hstep : Journal.Step P x a y) :
    ∃ r z, Journal.Step P y (.step r) z ∧ z.state.owner .ptable = none ∧ ¬ QueueLaw P z := by
  obtain ⟨r, q, m, rfl, hc, hb⟩ := hstray
  have hin := h.lined.mem_queue hb hc (by simp [locksAt]) (by simp)
  have hx := executed_at (Journal.step_inv hstep).1 hc
  have hfind : (P.slots.find? fun z => P.pid z == P.pid q) = some q :=
    find_eq_self (hslots q) (by simp) fun z hz => P.pid_injective (by simpa using hz)
  obtain ⟨c', htarget, hpc⟩ := hx.target_isSome
  have hmem := hx.mem_eq
  cases htarget
  have hyc : y.state.pc r = some (.killRelease 0) := by
    rw [hpc, update_self]
    simp [hfind]
  have howned := h.lined.owned.step (program_annotated P) (Journal.step_inv hstep).1
  have howner : y.state.owner .ptable = some r := howned r _ hyc _ (by simp [locksAt])
  refine ⟨r, ⟨(y.state.give r .ptable).goto r (.done 0), y.arrive (.step r), y.choose (.step r)⟩,
    ?_, ?_, fun hlaw => ?_⟩
  · simp only [Journal.Step, Journal.step, Spin.step, hyc, Option.bind_some, program, code, exec,
      howner, if_true, Option.map_some]
  · simp [State.give]
  have hwoken : (y.state.mem.proc q).state = .runnable := by
    rw [hmem]
    simp [program, code, Instr.effect, Mem.kill, hfind, Mem.update, hb.2]
  have hq := (hlaw.blocked q m).mp (by
    change P.pid q ∈ (y.state.mem.mutexes m).queue
    rw [hmem]
    simpa [program, code, Instr.effect] using hin)
  have hs : (y.state.mem.proc q).state = .sleeping := hq.2
  rw [hwoken] at hs
  cases hs

/-- Nobody is inside a call or asleep on a mutex, and no queue has an entry. -/
structure Fresh (x : Journal ι) : Prop where
  quiet : Quiet x.state
  chan : ∀ p, (x.state.mem.proc p).chan = none
  empty : ∀ m, (x.state.mem.mutexes m).numWaiters = 0
  arrived : ∀ m, x.arrived m = []
  chosen : ∀ m, x.chosen m = []

omit [DecidableEq ι] in
theorem Fresh.recorded (P : Procs ι) (h : Fresh x) : Recorded P x := by
  have hnone := h.quiet.1
  have hqueue : ∀ m, (x.state.mem.mutexes m).queue = [] := by
    intro m
    simp [Mutex.queue, h.empty m]
  refine ⟨⟨.of_quiet h.quiet h.chan h.empty, fun p m hp => ?_, fun m => ?_, fun m v hv => ?_,
    fun p m => ?_, fun m v hv => ?_⟩, fun m => ?_, fun p c m hc => ?_, fun m v hv => ?_⟩
  · simp [hnone p] at hp
  · simp [hqueue m]
  · simp [hqueue m] at hv
  · simp [hqueue m, Enqueued, Blocked, hnone p]
  · simp [Halfway, hnone] at hv
  · simp [hqueue m, h.arrived m, h.chosen m]
  · simp [hnone p] at hc
  · simp [Halfway, hnone] at hv

/-- Any processes and any interleaving of the calls in which no `kill` finds a process blocked
in `cv_wait`: with `ptable.lock` free the array holds the blocked processes in the order of
their arrival; a `cv_signal` that finds one blocked wakes the first to have come and no other;
and `cv_wait` returns `1` to a process that has been chosen once for each of its arrivals. A
`kill` that does find one breaks the law as soon as it gives the lock back. -/
theorem cv_queue_law {P : Procs ι} (hslots : ∀ q, q ∈ P.slots) {x y : Journal ι}
    {as : List (Label ι)} (hfresh : Fresh x)
    (hrun : Run (Guarded (Journal.Step P) fun x a => ¬ Strays P x.state a) x as y) :
    (y.state.owner .ptable = none → QueueLaw P y) ∧
      (∀ r m, y.state.pc r = some (.signalTest m) →
        ((y.state.mem.mutexes m).numWaiters ≠ 0 ↔ ∃ q, Blocked y.state q m)) ∧
      (∀ r m v, y.state.pc r = some (.signalWake m v) →
        ∃ q earlier later, P.pid q = v ∧ Blocked y.state q m ∧
          y.arrived m = earlier ++ q :: later ∧ y.chosen m = earlier.map P.pid ++ [v] ∧
          (y.state.mem.mutexes m).queue = later.map P.pid ∧
          ∀ z, Journal.Step P y (.step r) z → (z.state.mem.proc q).state = .runnable ∧
            ∀ p, p ≠ q → z.state.mem.proc p = y.state.mem.proc p) ∧
      (∀ p m, y.state.pc p = some (.cvDone m) →
        p ∈ y.arrived m ∧ (y.chosen m).count (P.pid p) = (y.arrived m).count p) ∧
      (∀ a z, Journal.Step P y a z → Strays P y.state a →
        ∃ r w, Journal.Step P z (.step r) w ∧ w.state.owner .ptable = none ∧ ¬ QueueLaw P w) := by
  have hrec : Recorded P y := hrun.invariant_of_guarded
    (fun x a y h hok hstep => h.step hslots hok hstep) (hfresh.recorded P)
  exact ⟨hrec.law, fun r m hr => hrec.lined.signalTest hr,
    fun r m v hr => hrec.signalWake hslots hr, fun p m hp => hrec.cvDone hp,
    fun a z hstep hstray => hrec.stray hslots hstray hstep⟩

/-! ## Two runs of three processes -/

instance strays_decidable [Fintype ι] (P : Procs ι) (s : State ι) (a : Label ι) :
    Decidable (Strays P s a) :=
  match a with
  | .call _ _ => isFalse fun h => by
    obtain ⟨r, q, m, ha, -⟩ := h
    cases ha
  | .ret _ _ => isFalse fun h => by
    obtain ⟨r, q, m, ha, -⟩ := h
    cases ha
  | .step r =>
    decidable_of_iff (∃ q, ∃ m : Mux, s.pc r = some (.killFind (P.pid q)) ∧
      s.pc q = some (.cvWait m) ∧ (s.mem.proc q).state = .sleeping)
      ⟨fun ⟨q, m, hr, hq⟩ => ⟨r, q, m, rfl, hr, hq⟩, fun h => by
        obtain ⟨r', q, m, ha, hr, hq⟩ := h
        cases ha
        exact ⟨q, m, hr, hq⟩⟩

/-- The first process creates a mutex and the other two wait on it. -/
def twoWaiting : List (Label (Fin 3)) :=
  .call 0 .mutexCreate :: steps 0 4 ++ .ret 0 0 :: .call 2 (.cvWait 0) :: steps 2 9 ++
    .call 1 (.cvWait 0) :: steps 1 9

def bootedJournal : Journal (Fin 3) := ⟨booted (Fin 3), fun _ => [], fun _ => []⟩

/-- The array holds the pids of the third and the second process, in this order. -/
theorem cv_queue_law_two :
    ∃ y, Run (Journal.Step threeProcs) bootedJournal twoWaiting y ∧ QueueLaw threeProcs y ∧
      (y.state.mem.mutexes 0).queue = [3, 2] := by
  refine Run.exists_of_guarded (fun x a => ¬ Strays threeProcs x.state a) (Run.foundOk id
    (fun y => y.state.owner .ptable = none ∧ (y.state.mem.mutexes 0).queue = [3, 2])
    (by decide +kernel) fun y hguard hall => ?_)
  have hlaw := cv_queue_law (by decide)
    ⟨⟨fun _ => rfl, fun _ => rfl⟩, fun _ => rfl, fun _ => rfl, fun _ => rfl, fun _ => rfl⟩ hguard
  exact ⟨hlaw.1 hall.1, hall.2⟩

/-- The first process kills the third: its pid stays in the array, and its `cv_wait` returns
`1` with no `cv_signal` in the whole run. -/
theorem kill_breaks_cv_queue :
    ∃ y z, Run (Journal.Step threeProcs) bootedJournal
        (twoWaiting ++ .call 0 (.kill 3) :: steps 0 3) y ∧
      Run (Journal.Step threeProcs) y (steps 2 7 ++ [.ret 2 1]) z ∧
      y.state.owner .ptable = none ∧ ¬ QueueLaw threeProcs y ∧ z.chosen 0 = [] := by
  simp only [exists_and_left]
  refine Run.found id (fun y => (execute (Journal.step threeProcs) y (steps 2 7 ++ [.ret 2 1])).any fun z =>
    (y.state.owner .ptable = none ∧ (y.state.mem.mutexes 0).queue = [3, 2] ∧
      (y.state.mem.proc 2).state = .runnable) ∧ z.chosen 0 = []) (by decide +kernel) fun y _ h => ?_
  refine Run.found id _ h ?_
  rintro z - ⟨⟨hfree, hqueue, hstate⟩, hchosen⟩
  refine ⟨hfree, fun hlaw => ?_, hchosen⟩
  have hin : threeProcs.pid 2 ∈ (y.state.mem.mutexes 0).queue := by
    rw [hqueue]
    decide
  have hblocked := ((hlaw.blocked 2 0).mp hin).2
  rw [hstate] at hblocked
  cases hblocked

end Xv6.Sync
