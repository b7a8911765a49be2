import Xv6.Sync.Exclusion

/-! # Wake-ups of `mutex_lock`

`mutex_unlock` clears `locked`, gives `mutex->lock` back and only then wakes the sleepers.
In between others may take the mutex, clear it or go to sleep. Whoever sleeps has seen
`locked` set; from the moment it is cleared until the wake-up some process is on its way
from the one to the other.
-/

namespace Xv6.Sync

open Function
open Lib Lib.Spin

variable {ι : Type} [DecidableEq ι]

variable {p q : ι} {P : Procs ι} {s t : State ι} {c : Pc} {m : Mux} {x : Mem ι} {pid : Int}

/-! ## What an instruction does to the other processes -/

@[simp] theorem Mem.wakeup1_chan :
    ((x.wakeup1 P m).proc q).chan = (x.proc q).chan := by
  simp only [Mem.wakeup1]
  split <;> rfl

@[simp] theorem Mem.update_chan (p q : ι) (f : Proc → Proc) (x : Mem ι)
    (hf : ∀ y, (f y).chan = y.chan) : ((x.update p f).proc q).chan = (x.proc q).chan := by
  by_cases hq : q = p
  · subst hq
    simp [Mem.update, hf]
  · rw [Mem.update_proc_of_ne hq]

@[simp] theorem Mem.wakePid_chan :
    ((x.wakePid P pid).proc q).chan = (x.proc q).chan := by
  unfold Mem.wakePid
  split
  · exact Mem.update_chan _ _ _ _ fun _ => rfl
  · rfl

@[simp] theorem Mem.kill_chan :
    ((x.kill P pid).proc q).chan = (x.proc q).chan := by
  unfold Mem.kill
  split
  · exact Mem.update_chan _ _ _ _ fun _ => rfl
  · rfl

theorem chan_effect :
    (((code P p c).effect x).proc p).chan =
      match c with
      | .sleepMark m => some m
      | .sleepWake _ => none
      | _ => (x.proc p).chan := by
  cases c with
  | createScan i =>
    rcases effect_createScan P p i x with heq | ⟨k, -, heq⟩ <;> rw [heq]
    rfl
  | _ => simp [code, Instr.effect, Mem.mutex, Mem.update]

theorem chan_effect_of_ne (P : Procs ι) (c : Pc) (x : Mem ι) (hne : q ≠ p) :
    (((code P p c).effect x).proc q).chan = (x.proc q).chan := by
  cases c with
  | createScan i =>
    rcases effect_createScan P p i x with heq | ⟨k, -, heq⟩ <;> rw [heq]
    rfl
  | _ => simp [code, Instr.effect, Mem.mutex, Mem.update_proc_of_ne hne]

/-- The three ways to change the state of another process: a sleeping one is made `RUNNABLE`. -/
theorem woken_by {r : ι} (hx : Executed s r (code P r c) t) (hne : q ≠ r)
    (hchanged : (t.mem.proc q).state ≠ (s.mem.proc q).state) : (s.mem.proc q).state = .sleeping ∧
      ((∃ k, c = .wakeup1 k ∧ (s.mem.proc q).chan = some k) ∨
        (∃ k, c = .signalWake k (P.pid q)) ∨ c = .killFind (P.pid q)) := by
  rw [hx.mem_eq] at hchanged
  cases c with
  | createScan i =>
    rcases effect_createScan P r i s.mem with heq | ⟨k, -, heq⟩ <;> rw [heq] at hchanged <;>
      exact absurd rfl hchanged
  | wakeup1 k =>
    simp only [code, Instr.effect, Mem.wakeup1] at hchanged
    split at hchanged
    · rename_i hw
      exact ⟨hw.2.1, .inl ⟨k, rfl, hw.2.2⟩⟩
    · exact absurd rfl hchanged
  | signalWake k pid =>
    simp only [code, Instr.effect, Mem.wakePid] at hchanged
    split at hchanged
    · rename_i x hfind
      by_cases hqx : q = x
      · subst hqx
        have hfound := List.find?_some hfind
        simp only [Bool.and_eq_true, beq_iff_eq] at hfound
        exact ⟨hfound.2, .inr (.inl ⟨k, by rw [hfound.1]⟩)⟩
      · rw [Mem.update_proc_of_ne hqx] at hchanged
        exact absurd rfl hchanged
    · exact absurd rfl hchanged
  | killFind pid =>
    simp only [code, Instr.effect, Mem.kill] at hchanged
    split at hchanged
    · rename_i x hfind
      by_cases hqx : q = x
      · subst hqx
        have hfound := List.find?_some hfind
        simp only [beq_iff_eq] at hfound
        by_cases hs : (s.mem.proc q).state = .sleeping
        · exact ⟨hs, .inr (.inr (by rw [hfound]))⟩
        · simp [Mem.update, hs] at hchanged
      · rw [Mem.update_proc_of_ne hqx] at hchanged
        exact absurd rfl hchanged
    · exact absurd rfl hchanged
  | _ => simp [code, Instr.effect, Mem.mutex, Mem.update, hne] at hchanged

theorem sleeping_of_executed (hx : Executed s p (code P p c) t) (hne : q ≠ p)
    (h : (t.mem.proc q).state = .sleeping) : (s.mem.proc q).state = .sleeping := by
  by_cases hsame : (t.mem.proc q).state = (s.mem.proc q).state
  · exact hsame ▸ h
  · exact (woken_by hx hne hsame).1

/-! ## Sleepers and the processes that will wake them -/

/-- Between `mutex->locked = 0` and the wake-up in `mutex_unlock`. -/
def waking (m : Mux) : Pc → Bool
  | .unlockClearPid k | .unlockRelease k | .wakeupAcquire k | .wakeup1 k => k == m
  | _ => false

/-- Some process is on its way from clearing `locked` to the wake-up. -/
def Waking (s : State ι) (m : Mux) : Prop :=
  ∃ q c, s.pc q = some c ∧ waking m c = true

/-- Asleep in `mutex_lock`, on the processor until `sched` or off it. -/
def AsleepIn (s : State ι) (p : ι) (m : Mux) : Prop :=
  (s.mem.proc p).state = .sleeping ∧
    (s.pc p = some (.sleepSched m) ∨ s.pc p = some (.sleepWait m))

/-- Asleep, or past `release(lk)` in `sleep`. -/
def Retiring (s : State ι) (p : ι) (m : Mux) : Prop :=
  s.pc p = some (.sleepMark m) ∨ AsleepIn s p m

structure Heeded (s : State ι) : Prop where
  locked_le : ∀ m, (s.mem.mutexes m).locked ≤ 1
  /-- What the test of `locked` has found holds as long as `mutex->lock` does. -/
  found : ∀ p m, s.pc p = some (.sleepAcquire m) ∨ s.pc p = some (.sleepRelease m) →
    (s.mem.mutexes m).locked = 1
  chan : ∀ p m, s.pc p = some (.sleepSched m) ∨ s.pc p = some (.sleepWait m) →
    (s.mem.proc p).chan = some m
  retiring : ∀ p m, Retiring s p m → (s.mem.mutexes m).locked = 1 ∨ Waking s m

def deleting : Pc → Bool
  | .deleteAcquire _ | .deleteUsed _ | .deleteLocked _ | .deleteWaiters _ | .deleteClearLocked _
  | .deleteClearUsed _ => true
  | _ => false

theorem deleting_target {c' : Pc} {x : Mem ι} (h : (code P p c).target x = some c') (hc : deleting c = false) :
    deleting c' = false := by
  cases c with
  | createScan i => rcases target_createScan h with ⟨k, rfl⟩ | rfl | rfl <;> rfl
  | _ =>
    simp only [code, Instr.target, Option.some.injEq, reduceCtorEq] at h
    try subst h
    try split
    all_goals first | rfl | cases hc

/-! ## One instruction -/

section Instruction

variable {P : Procs ι} {s t : State ι} {r : ι} {c : Pc}

/-- The points that write `locked`, less `mutex_delete`. -/
theorem locked_executed (hx : Executed s r (code P r c) t) (hdel : deleting c = false) (m : Mux) :
    (t.mem.mutexes m).locked = (s.mem.mutexes m).locked ∨
      ((c = .lockSet m ∨ c = .cvSet m) ∧ (t.mem.mutexes m).locked = 1) ∨
      (c = .unlockClear m ∧ (t.mem.mutexes m).locked = 0) := by
  rw [hx.mem_eq, locked_effect]
  by_cases hset : c = .lockSet m ∨ c = .cvSet m
  · exact .inr (.inl ⟨hset, if_pos hset⟩)
  rw [if_neg hset]
  by_cases hclear : c = .unlockClear m
  · exact .inr (.inr ⟨hclear, if_pos (.inl hclear)⟩)
  have hnot : ¬ (c = .unlockClear m ∨ c = .deleteClearLocked m) := by
    rintro (h | rfl)
    · exact hclear h
    · cases hdel
  exact .inl (if_neg hnot)

theorem locked_of_holding (howned : Owned locksAt s) (hc : s.pc r = some c)
    (hx : Executed s r (code P r c) t) (hdel : deleting c = false) {k : Pc} (hp : s.pc p = some k)
    (hmux : .mux m ∈ locksAt k) (hne : p ≠ r) : (t.mem.mutexes m).locked = (s.mem.mutexes m).locked := by
  rcases locked_executed hx hdel m with hsame | ⟨rfl | rfl, -⟩ | ⟨rfl, -⟩
  · exact hsame
  · exact absurd (howned.unique hp hc hmux (by simp [locksAt])) hne
  · exact absurd (howned.unique hp hc hmux (by simp [locksAt])) hne
  · exact absurd (howned.unique hp hc hmux (by simp [locksAt])) hne

/-- A process on its way to the wake-up stays so until it gets there. -/
theorem waking_executed (hc : s.pc r = some c) (hx : Executed s r (code P r c) t) (h : Waking s m) :
    Waking t m ∨ c = .wakeup1 m := by
  obtain ⟨q, k, hk, hw⟩ := h
  obtain ⟨c', htarget, hpc⟩ := hx.target_isSome
  by_cases hqr : q = r
  · subst hqr
    obtain rfl : c = k := Option.some.inj (hc.symm.trans hk)
    have hself : t.pc q = some c' := by rw [hpc, update_self]
    cases c with
    | wakeup1 k =>
      right
      simpa [waking] using hw
    | _ =>
      simp only [waking, reduceCtorEq] at hw
      try
        cases htarget
        exact .inl ⟨q, _, hself, hw⟩
  · exact .inl ⟨q, k, by rw [hpc, update_of_ne hqr, hk], hw⟩

/-- The wake-up reaches every process that is going to sleep on the mutex. -/
theorem not_retiring_of_wakeup1 (hslots : ∀ q, q ∈ P.slots) (h : Heeded s) (howned : Owned locksAt s)
    (hc : s.pc r = some (.wakeup1 m)) (hx : Executed s r (code P r (.wakeup1 m)) t) (hne : p ≠ r)
    (hp : Retiring s p m) : ¬ Retiring t p m := by
  have hother : t.pc p = s.pc p := (owner_frame hx hne).2
  have hptable : ∀ k, s.pc p = some k → Lock.ptable ∉ locksAt k := by
    intro k hk hl
    exact hne (howned.unique hk hc hl (by simp [locksAt]))
  rcases hp with hp | ⟨hs, hp | hp⟩
  · exact absurd (by simp [locksAt]) (hptable _ hp)
  · exact absurd (by simp [locksAt]) (hptable _ hp)
  have hwoken : (t.mem.proc p).state = .runnable := by
    rw [hx.mem_eq]
    simp [code, Instr.effect, Mem.wakeup1, hslots p, hs, h.chan p m (.inr hp)]
  rintro (hq | ⟨hq, -⟩)
  · rw [hother, hp] at hq
    cases hq
  · rw [hwoken] at hq
    cases hq

theorem retiring_of_executed (hx : Executed s r (code P r c) t) (hne : p ≠ r) (h : Retiring t p m) :
    Retiring s p m := by
  have hother : t.pc p = s.pc p := (owner_frame hx hne).2
  rw [Retiring, AsleepIn, hother] at h
  exact h.imp id fun hasleep => ⟨sleeping_of_executed hx hne hasleep.1, hasleep.2⟩

theorem retiring_self (hc : s.pc r = some c) (hx : Executed s r (code P r c) t) (h : Retiring t r m) :
    c = .sleepRelease m ∨ Retiring s r m ∧ (c = .sleepMark m ∨ c = .sleepSched m) := by
  rcases h with h | ⟨hs, h | h⟩
  · exact .inl (comesFrom hx h)
  · obtain rfl : c = .sleepMark m := comesFrom hx h
    exact .inr ⟨.inl hc, .inl rfl⟩
  · obtain rfl : c = .sleepSched m := comesFrom hx h
    rw [hx.mem_eq] at hs
    exact .inr ⟨.inr ⟨hs, .inl hc⟩, .inr rfl⟩

theorem found_self (hx : Executed s r (code P r c) t)
    (h : t.pc r = some (.sleepAcquire m) ∨ t.pc r = some (.sleepRelease m)) :
    c = .lockTest m ∧ (s.mem.mutexes m).locked ≠ 0 ∨ c = .sleepAcquire m := by
  rcases h with h | h
  · exact .inl (comesFrom hx h)
  · exact .inr (comesFrom hx h)

theorem chan_self (hx : Executed s r (code P r c) t)
    (h : t.pc r = some (.sleepSched m) ∨ t.pc r = some (.sleepWait m)) :
    (t.mem.proc r).chan = some m ∨ c = .sleepSched m := by
  rcases h with h | h
  · obtain rfl : c = .sleepMark m := comesFrom hx h
    rw [hx.mem_eq, chan_effect]
    exact .inl rfl
  · exact .inr (comesFrom hx h)

theorem Heeded.executed (hslots : ∀ q, q ∈ P.slots) (h : Heeded s) (howned : Owned locksAt s)
    (hc : s.pc r = some c) (hx : Executed s r (code P r c) t) (hdel : deleting c = false) : Heeded t where
  locked_le := fun m => by
    rcases locked_executed hx hdel m with hsame | ⟨-, hset⟩ | ⟨-, hclear⟩
    · exact hsame ▸ h.locked_le m
    · exact hset ▸ Nat.le_refl 1
    · exact hclear ▸ Nat.zero_le 1
  found := fun p m hp => by
    by_cases hpr : p = r
    · subst hpr
      obtain ⟨hsame, hone⟩ : (t.mem.mutexes m).locked = (s.mem.mutexes m).locked ∧
          (s.mem.mutexes m).locked = 1 := by
        rcases found_self hx hp with ⟨rfl, hlocked⟩ | rfl
        · have := h.locked_le m
          exact ⟨by rw [hx.mem_eq]; rfl, by omega⟩
        · exact ⟨by rw [hx.mem_eq]; rfl, h.found p m (.inl hc)⟩
      rw [hsame, hone]
    · rw [(owner_frame hx hpr).2] at hp
      have hsame : (t.mem.mutexes m).locked = (s.mem.mutexes m).locked := by
        rcases hp with hp | hp
        · exact locked_of_holding howned hc hx hdel hp (by simp [locksAt]) hpr
        · exact locked_of_holding howned hc hx hdel hp (by simp [locksAt]) hpr
      rw [hsame]
      exact h.found p m hp
  chan := fun p m hp => by
    by_cases hpr : p = r
    · subst hpr
      rcases chan_self hx hp with hchan | rfl
      · exact hchan
      · rw [hx.mem_eq]
        exact h.chan p m (.inl hc)
    · rw [(owner_frame hx hpr).2] at hp
      rw [hx.mem_eq, chan_effect_of_ne P c s.mem hpr]
      exact h.chan p m hp
  retiring := fun p m hp => by
    by_cases hpr : p = r
    · subst hpr
      rcases retiring_self hc hx hp with rfl | ⟨hbefore, hpoint⟩
      · left
        rw [hx.mem_eq]
        exact h.found p m (.inr hc)
      have hsame : t.mem.mutexes = s.mem.mutexes := by
        rw [hx.mem_eq]
        rcases hpoint with rfl | rfl <;> rfl
      rw [hsame]
      refine (h.retiring p m hbefore).imp id fun hw => ?_
      refine (waking_executed hc hx hw).resolve_right ?_
      rintro rfl
      rcases hpoint with hk | hk <;> cases hk
    · have hbefore := retiring_of_executed hx hpr hp
      rcases h.retiring p m hbefore with hlocked | hw
      · rcases locked_executed hx hdel m with hsame | ⟨-, hset⟩ | ⟨rfl, -⟩
        · exact .inl (hsame.trans hlocked)
        · exact .inl hset
        · -- the process that clears `locked` is now on its way to the wake-up
          obtain ⟨c', htarget, hpc⟩ := hx.target_isSome
          cases htarget
          exact .inr ⟨r, .unlockClearPid m, by rw [hpc, update_self], by simp [waking]⟩
      · rcases waking_executed hc hx hw with hw | rfl
        · exact .inr hw
        · exact absurd hp (not_retiring_of_wakeup1 hslots h howned hc hx hpr hbefore)

end Instruction

/-! ## Runs -/

/-- The points that play no part for the sleepers, the waiters and the namespaces. -/
def aside : Pc → Bool
  | .createName _ | .unlockClearPid _ | .unlockRelease _ | .wakeupAcquire _ | .wakeup1 _
  | .sleepAcquire _ | .sleepRelease _ | .sleepMark _ | .sleepSched _ | .sleepWait _ | .sleepWake _
  | .cvMark _ | .cvRelease _ | .cvSched _ | .cvWait _ | .signalShift _ | .signalWake _ _ => false
  | _ => true

theorem aside_entry (k : Call) : aside (entry k) = true := by
  have hstarts := starts_entry k
  generalize entry k = c at hstarts
  cases hstarts <;> rfl

theorem aside_ret {v : Int} (h : code P p c = .ret v) : aside c = true := by
  cases c with
  | createScan i => rfl
  | _ => first | rfl | cases h

theorem not_aside_of_waking (h : waking m c = true) : aside c = false := by
  cases c <;> first | rfl | cases h

omit [DecidableEq ι] in
theorem Heeded.unmoved (h : Heeded s) (hu : Unmoved aside s t) : Heeded t := by
  have hasleep : ∀ p m, Retiring t p m → Retiring s p m := by
    rintro p m (hp | ⟨hs, hp⟩)
    · exact .inl ((hu.pc p _ rfl).mp hp)
    · rw [hu.mem] at hs
      exact .inr ⟨hs, hp.imp (hu.pc p _ rfl).mp (hu.pc p _ rfl).mp⟩
  refine ⟨fun m => hu.mem ▸ h.locked_le m, fun p m hp => ?_, fun p m hp => ?_, fun p m hp => ?_⟩
  · rw [hu.mem]
    exact h.found p m (hp.imp (hu.pc p _ rfl).mp (hu.pc p _ rfl).mp)
  · rw [hu.mem]
    exact h.chan p m (hp.imp (hu.pc p _ rfl).mp (hu.pc p _ rfl).mp)
  · rw [hu.mem]
    refine (h.retiring p m (hasleep p m hp)).imp id ?_
    rintro ⟨q, c, hc, hw⟩
    exact ⟨q, c, (hu.pc q c (not_aside_of_waking hw)).mpr hc, hw⟩

theorem entry_not_deleting {k : Call} (hk : ∀ m, k ≠ .mutexDelete m) : deleting (entry k) = false := by
  have hstarts := starts_entry k
  generalize entry k = c at hstarts
  cases hstarts with
  | delete m => exact absurd rfl (hk m)
  | _ => rfl

/-- What the steps of the calls but `mutex_delete` keep. -/
structure Settled (s : State ι) : Prop where
  owned : Owned locksAt s
  kept : ∀ p c, s.pc p = some c → deleting c = false
  heeded : Heeded s

theorem Settled.step (hslots : ∀ q, q ∈ P.slots) {a : Label ι} (h : Settled s)
    (hcall : ∀ p m, a ≠ .call p (.mutexDelete m)) (hstep : Step (program P) s a t) : Settled t := by
  refine ⟨h.owned.step (program_annotated P) hstep, fun p c hc => ?_, ?_⟩
  · rcases pc_before hstep hc with hc | ⟨k, rfl, rfl⟩ | ⟨k, -, hk, htarget⟩
    · exact h.kept p c hc
    · exact entry_not_deleting fun m hm => hcall p m (hm ▸ rfl)
    · exact deleting_target htarget (h.kept p k hk)
  · rcases executed_or_unmoved aside_entry (fun _ _ _ => aside_ret) hstep with ⟨q, k, -, hq, hx⟩ | hu
    · exact h.heeded.executed hslots h.owned hq hx (h.kept q k hq)
    · exact h.heeded.unmoved hu

omit [DecidableEq ι] in
theorem Quiet.settled (h : Quiet s) (hlocked : ∀ m, (s.mem.mutexes m).locked ≤ 1) : Settled s := by
  refine ⟨fun p c hc => ?_, fun p c hc => ?_, hlocked, fun p m hp => ?_, fun p m hp => ?_,
    fun p m hp => ?_⟩
  · simp [h.1 p] at hc
  · simp [h.1 p] at hc
  · simp [h.1 p] at hp
  · simp [h.1 p] at hp
  · simp [Retiring, AsleepIn, h.1 p] at hp

/-- Any processes and any interleaving of the calls but `mutex_delete`: a process asleep in
`mutex_lock` sleeps on a locked mutex, or some `mutex_unlock` has cleared `locked` and has
not yet come to the wake-up. -/
theorem asleep_on_locked {P : Procs ι} (hslots : ∀ q, q ∈ P.slots) {s t : State ι}
    {as : List (Label ι)} (hquiet : Quiet s) (hlocked : ∀ m, (s.mem.mutexes m).locked ≤ 1)
    (hcalls : ∀ a ∈ as, ∀ p m, a ≠ .call p (.mutexDelete m))
    (hrun : Run (Step (program P)) s as t) (p : ι) (m : Mux) (hasleep : AsleepIn t p m)
    (hnone : ∀ q c, t.pc q = some c → waking m c = false) : (t.mem.mutexes m).locked = 1 := by
  have hsettled := hrun.invariant_of_labels (fun a => ∀ p m, a ≠ .call p (.mutexDelete m)) Settled
    (fun s a t h hok hstep => h.step hslots hok hstep) hcalls (hquiet.settled hlocked)
  refine (hsettled.heeded.retiring p m (.inr hasleep)).resolve_right ?_
  rintro ⟨q, c, hc, hw⟩
  rw [hnone q c hc] at hw
  cases hw

/-- The first process creates a mutex and locks it; the second wants it too. -/
def contended : List (Label (Fin 3)) :=
  .call 0 .mutexCreate :: steps 0 4 ++ .ret 0 0 :: .call 0 (.mutexLock 0) :: steps 0 9 ++
    .ret 0 1 :: .call 1 (.mutexLock 0) :: steps 1 9

theorem asleep_on_locked_contended :
    ∃ t, Run (Step (program threeProcs)) (booted (Fin 3)) contended t ∧ AsleepIn t 1 0 ∧
      (t.mem.mutexes 0).locked = 1 := by
  refine Run.found id (fun t => ((t.mem.proc 1).state = .sleeping ∧ t.pc 1 = some (.sleepWait 0)) ∧
    ∀ q, (t.pc q).all fun c => !waking 0 c) (by decide +kernel) ?_
  rintro t hrun ⟨⟨hstate, hpc⟩, hnone⟩
  have hasleep : AsleepIn t 1 0 := ⟨hstate, .inr hpc⟩
  refine ⟨hasleep, asleep_on_locked (by decide) ⟨fun _ => rfl, fun _ => rfl⟩
    (fun _ => Nat.zero_le 1) ?_ hrun 1 0 hasleep ?_⟩
  · intro a ha p m heq
    subst heq
    revert ha
    simp [contended, steps]
  · intro q c hc
    have hq := hnone q
    rw [hc] at hq
    simpa using hq

/-- While `mutex_unlock` still holds `mutex->lock`, `locked` is already `0` and the sleeper
sleeps on. -/
theorem asleep_on_unlocked :
    ∃ t, Run (Step (program threeProcs)) (booted (Fin 3))
        (contended ++ .call 0 (.mutexUnlock 0) :: steps 0 5) t ∧
      AsleepIn t 1 0 ∧ (t.mem.mutexes 0).locked = 0 ∧ t.owner (.mux 0) = some 0 ∧
      ∀ q m, t.pc q ≠ some (.wakeupAcquire m) ∧ t.pc q ≠ some (.wakeup1 m) := by
  refine Run.found id (fun t => ((t.mem.proc 1).state = .sleeping ∧ t.pc 1 = some (.sleepWait 0)) ∧
    (t.mem.mutexes 0).locked = 0 ∧ t.owner (.mux 0) = some 0 ∧
    ∀ q m, t.pc q ≠ some (.wakeupAcquire m) ∧ t.pc q ≠ some (.wakeup1 m)) (by decide +kernel) ?_
  exact fun t _ h => ⟨⟨h.1.1, .inr h.1.2⟩, h.2⟩

end Xv6.Sync
