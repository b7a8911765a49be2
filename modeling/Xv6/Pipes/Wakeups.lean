import Xv6.Pipes.Fifo

/-! # Who sleeps on a pipe

A reader sleeps on an empty pipe with a writer left and a writer on a full one with a
reader left. While `p->lock` is held the pipe may be in between: its holder has changed it
and will wake the sleepers before it gives the lock back. One way out does not: `pipewrite`
returns `-1` from a full pipe without waking the readers for what it has stored.
-/

namespace Xv6.Pipes

open Function
open Lib Lib.Spin

variable {ι : Type} [DecidableEq ι]

variable {P : Procs ι} {x : Mem ι} {q p : ι} {ch : Chan} {c c' : Pc} {s t : State ι}

/-! ## What an instruction does to the processes -/

@[simp] theorem Mem.wakeup1_chan :
    ((x.wakeup1 P ch).proc q).chan = (x.proc q).chan := by
  simp only [Mem.wakeup1]
  split <;> rfl

theorem Mem.update_proc (f : Proc → Proc) :
    (x.update p f).proc q = if q = p then f (x.proc q) else x.proc q := by
  by_cases hq : q = p
  · subst hq
    simp [Mem.update]
  · simp [Mem.update, hq]

@[simp] theorem Mem.kill_chan (pid : Int) :
    ((x.kill P pid).proc q).chan = (x.proc q).chan := by
  unfold Mem.kill
  split
  · rw [Mem.update_proc]
    split <;> rfl
  · rfl

theorem Mem.kill_sleeping {pid : Int} (h : ((x.kill P pid).proc q).state = .sleeping) :
    (x.proc q).state = .sleeping := by
  unfold Mem.kill at h
  split at h
  · rw [Mem.update_proc] at h
    split at h
    · by_contra hs
      simp [hs] at h
    · exact h
  · exact h

theorem Mem.wakeup1_sleeping (h : ((x.wakeup1 P ch).proc q).state = .sleeping) :
    (x.proc q).state = .sleeping := by
  simp only [Mem.wakeup1] at h
  split at h
  · cases h
  · exact h

theorem chan_effect :
    (((code P p c).effect x).proc q).chan =
      match c with
      | .sleepMark k => if q = p then some k.chan else (x.proc q).chan
      | .sleepWake _ => if q = p then none else (x.proc q).chan
      | _ => (x.proc q).chan := by
  cases c with
  | writeLoop buf i | readLoop n i =>
    simp only [code]
    split <;> rfl
  | sleepMark k | sleepWake k | sleepWait k =>
    simp only [code, Instr.effect, Mem.update_proc]
    split <;> rfl
  | _ => simp [code, Instr.effect]

/-- Nobody is put to sleep but by its own `sleep`. -/
theorem sleeping_effect (h : (((code P p c).effect x).proc q).state = .sleeping) :
    (x.proc q).state = .sleeping ∨ q = p ∧ ∃ k, c = .sleepMark k := by
  cases c with
  | writeLoop buf i | readLoop n i =>
    simp only [code] at h
    split at h <;> exact .inl h
  | sleepMark k =>
    simp only [code, Instr.effect, Mem.update_proc] at h
    split at h
    · exact .inr ⟨‹_›, k, rfl⟩
    · exact .inl h
  | sleepWait k =>
    simp only [code, Instr.effect, Mem.update_proc] at h
    split at h
    · cases h
    · exact .inl h
  | sleepWake k =>
    simp only [code, Instr.effect, Mem.update_proc] at h
    split at h <;> exact .inl h
  | fullWake buf i | writeWake buf | readWake i | closeWake w => exact .inl (Mem.wakeup1_sleeping h)
  | killFind pid => exact .inl (Mem.kill_sleeping h)
  | _ => exact .inl h

/-! ## Sleepers and the processes that will wake them -/

/-- What the sleepers on a channel wait for has not happened. -/
def Pipe.Awaits (x : Pipe) : Chan → Prop
  | .nread => x.isEmpty = true ∧ x.writeopen = 1
  | .nwrite => x.isFull = true ∧ x.readopen = 1

def Asleep (s : State ι) (p : ι) (ch : Chan) : Prop :=
  (s.mem.proc p).state = .sleeping ∧ (s.mem.proc p).chan = some ch

/-- Asleep, or past `release(lk)` in `sleep`. -/
def Retiring (s : State ι) (p : ι) (ch : Chan) : Prop :=
  (∃ k : Loop, s.pc p = some (.sleepMark k) ∧ k.chan = ch) ∨ Asleep s p ch

/-- The points under `p->lock` that a call passes on its way to the wake-up of a channel, or
to the return of `pipewrite` that leaves it out. -/
def rousing : Pc → Option Chan
  | .writeLoop _ _ | .writeFull _ _ | .writeFail | .writeStore _ _ | .fullWakeAcquire _ _
  | .fullWake _ _ | .writeWake _ => some .nread
  | .readLoop _ _ | .readCopy _ _ | .readWakeAcquire _ | .readWake _ => some .nwrite
  | .closeWakeAcquire w | .closeWake w => some (closeChan w)
  | _ => none

/-- The points under `p->lock` reached by finding that there is something to wait for. -/
def commits : Pc → Option Chan
  | .readKilled _ => some .nread
  | .fullWakeAcquire _ _ | .fullWake _ _ | .fullWakeRelease _ _ => some .nwrite
  | .sleepAcquire k | .sleepRelease k => some k.chan
  | _ => none

def sleepsOn : Pc → Option Chan
  | .sleepSched k | .sleepWait k | .sleepWake k => some k.chan
  | _ => none

structure Heeded (s : State ι) : Prop where
  tested : Tested s
  bound : s.mem.pipe.nread < uintMod
  flags : s.mem.pipe.readopen ≤ 1 ∧ s.mem.pipe.writeopen ≤ 1
  full : ∀ p c, s.pc p = some c → (∃ buf i, c = .writeFull buf i) ∨ c = .writeFail →
    s.mem.pipe.isFull = true
  chan : ∀ p ch, (s.mem.proc p).chan = some ch → ∃ c, s.pc p = some c ∧ sleepsOn c = some ch
  committed : ∀ p c ch, s.pc p = some c → commits c = some ch → s.mem.pipe.Awaits ch
  retiring : ∀ p ch, Retiring s p ch →
    s.mem.pipe.Awaits ch ∨ ∃ q c, s.pc q = some c ∧ rousing c = some ch

/-- The `pipewrite` of a killed writer, or of one without readers, gives `p->lock` back on a
full pipe while a process is asleep on `&p->nread`, or about to be. -/
def Abandons (s : State ι) (a : Label ι) : Prop :=
  ∃ r p, a = .step r ∧ s.pc r = some .writeFail ∧ Retiring s p .nread

theorem rousing_pipe (h : rousing c = some ch) : .pipe ∈ locksAt c := by
  cases c <;> simp_all [rousing, locksAt]

theorem commits_pipe (h : commits c = some ch) : .pipe ∈ locksAt c := by
  cases c <;> simp_all [commits, locksAt]

/-! ## One instruction -/

section Instruction

variable {P : Procs ι} {s t : State ι} {r : ι} {c : Pc}

/-- The points that wake the sleepers on a channel. -/
def rouses : Pc → Option Chan
  | .fullWake _ _ | .writeWake _ => some .nread
  | .readWake _ => some .nwrite
  | .closeWake w => some (closeChan w)
  | _ => none

/-- Who is on the way to a wake-up stays so until it gets there, or gives up. -/
theorem rousing_target (h : (code P r c).target x = some c') (hc : rousing c = some ch) :
    rousing c' = some ch ∨ rouses c = some ch ∨ c = .writeFail := by
  cases c with
  | writeLoop buf i =>
    rcases target_writeLoop h with ⟨-, -, rfl⟩ | ⟨-, -, rfl⟩ | ⟨-, rfl⟩ <;> exact .inl hc
  | readLoop n i =>
    rcases target_readLoop h with ⟨-, rfl⟩ | ⟨-, rfl⟩ | rfl <;> exact .inl hc
  | writeFail => exact .inr (.inr rfl)
  | closeWake w | fullWake buf i | writeWake buf | readWake i => exact .inr (.inl hc)
  | _ =>
    simp only [code, Instr.target, Option.some.injEq, reduceCtorEq] at h
    try subst h
    try split
    all_goals first | exact .inl hc | cases hc

/-- A wake-up reaches every process that is going to sleep on the channel. -/
theorem not_retiring_of_rouses (hslots : ∀ q, q ∈ P.slots) (howned : Owned locksAt s) (hc : s.pc r = some c)
    (hx : Executed s r (code P r c) t) (hr : rouses c = some ch) (hne : p ≠ r) : ¬ Retiring t p ch := by
  have hptable : .ptable ∈ locksAt c := by cases c <;> simp_all [rouses, locksAt]
  have hmem : t.mem = s.mem.wakeup1 P ch := by
    rw [hx.mem_eq]
    cases c <;> cases hr <;> rfl
  rintro (⟨k, hk, -⟩ | ⟨hs, hchan⟩)
  · rw [(owner_frame hx hne).2] at hk
    exact hne (howned.unique hk hc (by simp [locksAt]) hptable)
  · rw [hmem, Mem.wakeup1_chan] at hchan
    rw [hmem] at hs
    have hbefore := Mem.wakeup1_sleeping hs
    simp [Mem.wakeup1, hslots p, hbefore, hchan] at hs

theorem retiring_other (hx : Executed s r (code P r c) t) (hne : p ≠ r) (h : Retiring t p ch) :
    Retiring s p ch := by
  rcases h with ⟨k, hk, hch⟩ | ⟨hs, hchan⟩
  · rw [(owner_frame hx hne).2] at hk
    exact .inl ⟨k, hk, hch⟩
  · rw [hx.mem_eq] at hs hchan
    refine .inr ⟨(sleeping_effect hs).resolve_right fun h => hne h.1, ?_⟩
    rw [chan_effect] at hchan
    cases c <;> simpa [hne] using hchan

theorem pipe_same (hx : Executed s r (code P r c) t) (hstore : ∀ buf i, c ≠ .writeStore buf i)
    (hcopy : ∀ n i, c ≠ .readCopy n i) (hflag : ∀ w, c ≠ .closeFlag w) :
    t.mem.pipe = s.mem.pipe := by
  rw [hx.mem_eq, pipe_effect]
  cases c with
  | writeStore buf i => exact absurd rfl (hstore buf i)
  | readCopy n i => exact absurd rfl (hcopy n i)
  | closeFlag w => exact absurd rfl (hflag w)
  | _ => rfl

theorem flags_executed (hx : Executed s r (code P r c) t)
    (h : s.mem.pipe.readopen ≤ 1 ∧ s.mem.pipe.writeopen ≤ 1) (hbound : s.mem.pipe.nread < uintMod) :
    (t.mem.pipe.readopen ≤ 1 ∧ t.mem.pipe.writeopen ≤ 1) ∧ t.mem.pipe.nread < uintMod := by
  rw [hx.mem_eq, pipe_effect]
  cases c with
  | readCopy n i => exact ⟨h, Nat.mod_lt _ (by decide)⟩
  | closeFlag w =>
    cases w
    · exact ⟨⟨Nat.zero_le 1, h.2⟩, hbound⟩
    · exact ⟨⟨h.1, Nat.zero_le 1⟩, hbound⟩
  | _ => exact ⟨h, hbound⟩

section Moves

variable (h : Heeded s) (hc : s.pc r = some c) (hx : Executed s r (code P r c) t)

include h hc hx

theorem retiring_self (hr : Retiring t r ch) : (∃ k, c = .sleepRelease k ∧ k.chan = ch) ∨
      Retiring s r ch ∧ ∃ k, c = .sleepMark k ∨ c = .sleepSched k := by
  rcases hr with ⟨k, hk, hch⟩ | ⟨hs, hchan⟩
  · exact .inl ⟨k, comesFrom hx hk, hch⟩
  · rw [hx.mem_eq] at hs hchan
    rw [chan_effect] at hchan
    right
    rcases sleeping_effect hs with hbefore | ⟨-, k, rfl⟩
    · -- awake or asleep, it is inside `sleep`
      have hasleep : (s.mem.proc r).chan = some ch →
          Retiring s r ch ∧ ∃ k, c = .sleepMark k ∨ c = .sleepSched k := by
        intro hch
        refine ⟨.inr ⟨hbefore, hch⟩, ?_⟩
        obtain ⟨c0, hc0, hpoint⟩ := h.chan r ch hch
        rw [hc, Option.some.injEq] at hc0
        subst hc0
        cases c with
        | sleepSched k => exact ⟨k, .inr rfl⟩
        | sleepWait k =>
          cases hx with
          | resume _ isReady => simp [hbefore] at isReady
        | sleepWake k => simp at hchan
        | _ => cases hpoint
      cases c with
      | sleepMark k =>
        simp only [if_true, Option.some.injEq] at hchan
        exact ⟨.inl ⟨k, hc, hchan⟩, k, .inl rfl⟩
      | sleepWake k => simp at hchan
      | _ => exact hasleep hchan
    · simp only [if_true, Option.some.injEq] at hchan
      exact ⟨.inl ⟨k, hc, hchan⟩, k, .inl rfl⟩

theorem awaits_executed (hch : s.mem.pipe.Awaits ch) : t.mem.pipe.Awaits ch ∨ ∃ c', t.pc r = some c' ∧ rousing c' = some ch := by
  obtain ⟨c', htarget, hpc⟩ := hx.target_isSome
  have hself : t.pc r = some c' := by rw [hpc, update_self]
  have hpipe : t.mem.pipe = ((code P r c).effect s.mem).pipe := by rw [hx.mem_eq]
  rw [pipe_effect] at hpipe
  cases c with
  | writeStore buf i =>
    cases htarget
    cases ch with
    | nread => exact .inr ⟨_, hself, rfl⟩
    | nwrite =>
      have hroom := (h.tested.room r buf i hc).1
      rw [hch.1] at hroom
      cases hroom
  | readCopy n i =>
    cases htarget
    cases ch with
    | nread =>
      have hthere := h.tested.there r n i hc
      rw [hch.1] at hthere
      cases hthere
    | nwrite => exact .inr ⟨_, hself, rfl⟩
  | closeFlag w =>
    cases htarget
    by_cases hw : closeChan w = ch
    · exact .inr ⟨_, hself, congrArg some hw⟩
    · left
      rw [hpipe]
      cases w <;> cases ch <;> first | exact absurd rfl hw | exact hch
  | _ =>
    left
    rw [hpipe]
    exact hch

theorem commits_self (hc' : t.pc r = some c') (hch : commits c' = some ch) : t.mem.pipe.Awaits ch := by
  have hfrom := comesFrom hx hc'
  have hflags := h.flags
  cases c' with
  | readKilled n =>
    cases hch
    obtain ⟨rfl, hempty, hopen⟩ := hfrom
    rw [hx.mem_eq]
    exact ⟨hempty, Nat.le_antisymm hflags.2 (Nat.pos_of_ne_zero hopen)⟩
  | fullWakeAcquire buf i =>
    cases hch
    obtain ⟨rfl, hopen⟩ := hfrom
    rw [hx.mem_eq]
    exact ⟨h.full r _ hc (.inl ⟨buf, i, rfl⟩), Nat.le_antisymm hflags.1 (Nat.pos_of_ne_zero hopen)⟩
  | sleepAcquire k =>
    cases k with
    | write buf i | read n =>
      cases hch
      obtain rfl := hfrom
      rw [hx.mem_eq]
      exact h.committed r _ _ hc rfl
  | fullWake buf i | fullWakeRelease buf i | sleepRelease k =>
    cases hch
    obtain rfl := hfrom
    rw [hx.mem_eq]
    exact h.committed r _ _ hc rfl
  | _ => cases hch

theorem full_self (hc' : t.pc r = some c') (hpoint : (∃ buf i, c' = .writeFull buf i) ∨ c' = .writeFail) :
    t.mem.pipe.isFull = true := by
  have hfrom := comesFrom hx hc'
  rcases hpoint with ⟨buf, i, rfl⟩ | rfl
  · obtain ⟨rfl, hfull⟩ := hfrom
    rw [hx.mem_eq, pipe_effect]
    exact hfull
  · obtain ⟨buf, i, rfl⟩ := hfrom
    rw [hx.mem_eq]
    exact h.full r _ hc (.inl ⟨buf, i, rfl⟩)

theorem chan_self (hch : (t.mem.proc r).chan = some ch) : ∃ c', t.pc r = some c' ∧ sleepsOn c' = some ch := by
  obtain ⟨k, htarget, hpc⟩ := hx.target_isSome
  have hself : t.pc r = some k := by rw [hpc, update_self]
  rw [hx.mem_eq, chan_effect] at hch
  have hbefore : (s.mem.proc r).chan = some ch → sleepsOn c = some ch := by
    intro hs
    obtain ⟨c0, hc0, hpoint⟩ := h.chan r ch hs
    rw [hc, Option.some.injEq] at hc0
    exact hc0 ▸ hpoint
  cases c with
  | sleepMark j =>
    cases htarget
    simp only [if_true] at hch
    exact ⟨_, hself, hch⟩
  | sleepSched j | sleepWait j =>
    cases htarget
    exact ⟨_, hself, hbefore hch⟩
  | sleepWake j => simp at hch
  | _ => cases hbefore hch

theorem retiring_executed (hslots : ∀ q, q ∈ P.slots) (hok : ¬ Abandons s (.step r)) (p : ι) (ch : Chan)
    (hp : Retiring t p ch) :
    t.mem.pipe.Awaits ch ∨ ∃ q k, t.pc q = some k ∧ rousing k = some ch := by
  have howned := h.tested.owned
  have hcarry : Retiring s p ch → (p = r → rouses c ≠ some ch ∧ c ≠ .writeFail) →
      t.mem.pipe.Awaits ch ∨ ∃ q k, t.pc q = some k ∧ rousing k = some ch := by
    intro hbefore hmine
    rcases h.retiring p ch hbefore with hawaits | ⟨q, k, hk, hrousing⟩
    · exact (awaits_executed h hc hx hawaits).imp id fun hnext => ⟨r, hnext⟩
    by_cases hqr : q = r
    · subst hqr
      rw [hc, Option.some.injEq] at hk
      subst hk
      obtain ⟨c', htarget, hpc⟩ := hx.target_isSome
      rcases rousing_target htarget hrousing with hr | hr | rfl
      · exact .inr ⟨q, c', by rw [hpc, update_self], hr⟩
      · by_cases hpq : p = q
        · exact absurd hr (hmine hpq).1
        · exact absurd hp (not_retiring_of_rouses hslots howned hc hx hr hpq)
      · cases hrousing
        exact absurd ⟨q, p, rfl, hc, hbefore⟩ hok
    · exact .inr ⟨q, k, (owner_frame hx hqr).2.trans hk, hrousing⟩
  by_cases hpr : p = r
  · subst hpr
    rcases retiring_self h hc hx hp with ⟨k, rfl, rfl⟩ | ⟨hbefore, k, hk⟩
    · left
      rw [pipe_same hx (by simp) (by simp) (by simp)]
      exact h.committed p _ _ hc rfl
    · refine hcarry hbefore fun _ => ?_
      rcases hk with rfl | rfl <;> simp [rouses]
  · exact hcarry (retiring_other hx hpr hp) fun he => absurd he hpr

end Moves

theorem Heeded.executed (hslots : ∀ q, q ∈ P.slots) (h : Heeded s) (htested : Tested t)
    (hc : s.pc r = some c) (hx : Executed s r (code P r c) t) (hok : ¬ Abandons s (.step r)) : Heeded t where
  tested := htested
  bound := (flags_executed hx h.flags h.bound).2
  flags := (flags_executed hx h.flags h.bound).1
  full := fun p k hk hpoint => by
    by_cases hpr : p = r
    · subst hpr
      exact full_self h hc hx hk hpoint
    rw [(owner_frame hx hpr).2] at hk
    have hpipe : .pipe ∈ locksAt k := by
      rcases hpoint with ⟨buf, i, rfl⟩ | rfl <;> simp [locksAt]
    rw [pipe_frame h.tested.owned hc hx hk hpipe hpr]
    exact h.full p k hk hpoint
  chan := fun p ch hch => by
    by_cases hpr : p = r
    · subst hpr
      exact chan_self h hc hx hch
    have hbefore : (s.mem.proc p).chan = some ch := by
      rw [hx.mem_eq, chan_effect] at hch
      cases c <;> simpa [hpr] using hch
    rw [(owner_frame hx hpr).2]
    exact h.chan p ch hbefore
  committed := fun p k ch hk hch => by
    by_cases hpr : p = r
    · subst hpr
      exact commits_self h hc hx hk hch
    · rw [(owner_frame hx hpr).2] at hk
      rw [pipe_frame h.tested.owned hc hx hk (commits_pipe hch) hpr]
      exact h.committed p k ch hk hch
  retiring := retiring_executed h hc hx hslots hok

end Instruction

/-! ## Runs -/

omit [DecidableEq ι] in
theorem Heeded.unmoved (h : Heeded s) (htested : Tested t) (hu : Unmoved idle s t) : Heeded t := by
  have hidle : ∀ {c : Pc} {ch : Chan}, rousing c = some ch ∨ commits c = some ch ∨
      sleepsOn c = some ch → idle c = false := by
    intro c ch hpoint
    cases c <;> first | rfl | simp [rousing, commits, sleepsOn] at hpoint
  refine ⟨htested, hu.mem ▸ h.bound, hu.mem ▸ h.flags, fun p c hc hpoint => ?_, fun p ch hch => ?_,
    fun p c ch hc hpoint => ?_, fun p ch hp => ?_⟩
  · rw [hu.mem]
    refine h.full p c ((hu.pc p c ?_).mp hc) hpoint
    rcases hpoint with ⟨buf, i, rfl⟩ | rfl <;> rfl
  · rw [hu.mem] at hch
    obtain ⟨c, hc, hpoint⟩ := h.chan p ch hch
    exact ⟨c, (hu.pc p c (hidle (.inr (.inr hpoint)))).mpr hc, hpoint⟩
  · rw [hu.mem]
    exact h.committed p c ch ((hu.pc p c (hidle (.inr (.inl hpoint)))).mp hc) hpoint
  · rw [hu.mem]
    have hp' : Retiring s p ch := by
      rcases hp with ⟨k, hk, hch⟩ | hasleep
      · exact .inl ⟨k, (hu.pc p _ rfl).mp hk, hch⟩
      · rw [Asleep, hu.mem] at hasleep
        exact .inr hasleep
    refine (h.retiring p ch hp').imp id ?_
    rintro ⟨r, c, hc, hpoint⟩
    exact ⟨r, c, (hu.pc r c (hidle (.inl hpoint))).mpr hc, hpoint⟩

theorem Heeded.step (hslots : ∀ q, q ∈ P.slots) {a : Label ι} (h : Heeded s) (hok : ¬ Abandons s a)
    (hstep : Step (program P) s a t) : Heeded t := by
  have htested := h.tested.step hstep
  rcases executed_or_unmoved idle_entry (fun _ _ _ => idle_ret) hstep with ⟨q, k, rfl, hq, hx⟩ | hu
  · exact h.executed hslots htested hq hx hok
  · exact h.unmoved htested hu

omit [DecidableEq ι] in
theorem Allocated.heeded (h : Allocated s) : Heeded s := by
  have hnone := h.pc
  refine ⟨⟨h.owned, fun p buf i hp => ?_, fun p n i hp => ?_⟩, ?_, ?_, fun p c hc => ?_,
    fun p ch hch => ?_, fun p c ch hc => ?_, fun p ch hp => ?_⟩
  · simp [hnone p] at hp
  · simp [hnone p] at hp
  · rw [h.nread]
    decide
  · rw [h.readopen, h.writeopen]
    decide
  · simp [hnone p] at hc
  · simp [h.chan p] at hch
  · simp [hnone p] at hc
  · simp [Retiring, Asleep, hnone p, h.chan p] at hp

/-- Nobody sleeps while what it waits for has already happened. -/
structure SleepersWait (s : State ι) : Prop where
  readers : ∀ p, Asleep s p .nread →
    s.mem.pipe.nread = s.mem.pipe.nwrite ∧ s.mem.pipe.writeopen = 1
  writers : ∀ p, Asleep s p .nwrite →
    s.mem.pipe.nwrite = (s.mem.pipe.nread + pipeSize) % uintMod ∧ s.mem.pipe.readopen = 1

omit [DecidableEq ι] in
theorem Heeded.sleepersWait (h : Heeded s) (hfree : s.owner .pipe = none) : SleepersWait s := by
  have hawaits : ∀ p ch, Asleep s p ch → s.mem.pipe.Awaits ch := by
    intro p ch hp
    refine (h.retiring p ch (.inr hp)).resolve_right ?_
    rintro ⟨q, c, hc, hr⟩
    have howner := h.tested.owned q c hc _ (rousing_pipe hr)
    rw [hfree] at howner
    cases howner
  refine ⟨fun p hp => ?_, fun p hp => ?_⟩
  · obtain ⟨hempty, hopen⟩ := hawaits p .nread hp
    exact ⟨by simpa [Pipe.isEmpty] using hempty, hopen⟩
  · obtain ⟨hfull, hopen⟩ := hawaits p .nwrite hp
    exact ⟨by simpa [Pipe.isFull] using hfull, hopen⟩

theorem ne_of_isFull {x : Pipe} (hbound : x.nread < uintMod) (hfull : x.isFull = true) :
    x.nread ≠ x.nwrite := by
  have hw : x.nwrite = (x.nread + pipeSize) % uintMod := by simpa [Pipe.isFull] using hfull
  rw [hw]
  intro heq
  have hsame : x.nread % uintMod = (x.nread + pipeSize) % uintMod := by
    rw [Nat.mod_eq_of_lt hbound]
    exact heq
  have hlt : x.nread + pipeSize - x.nread < uintMod := by
    rw [Nat.add_sub_cancel_left]
    exact pipeSize_lt
  have hno := (WrapRing.mod_eq_iff_of_lt (Nat.le_add_right _ _) hlt).mp hsame
  exact Nat.ne_of_lt (Nat.lt_add_of_pos_right (by decide)) hno

/-- After an abandoning `pipewrite` a process sleeps on a pipe with bytes in it, at once or as
soon as it has marked itself. -/
theorem Heeded.abandoned {a : Label ι} (h : Heeded s) (habandons : Abandons s a)
    (hstep : Step (program P) s a t) : t.owner .pipe = none ∧ (¬ SleepersWait t ∨
      ∃ p u, Step (program P) t (.step p) u ∧ u.owner .pipe = none ∧ ¬ SleepersWait u) := by
  obtain ⟨r, p, rfl, hr, hp⟩ := habandons
  have hne := ne_of_isFull h.bound (h.full r _ hr (.inr rfl))
  have hx := executed_at hstep hr
  have hmem : t.mem = s.mem := hx.mem_eq
  have hfree : t.owner .pipe = none := by
    simp only [program, code] at hx
    cases hx
    simp [State.give]
  refine ⟨hfree, ?_⟩
  rcases hp with ⟨k, hk, hch⟩ | hasleep
  · have hpr : p ≠ r := by
      rintro rfl
      rw [hr] at hk
      cases hk
    have hpc : t.pc p = some (.sleepMark k) := (owner_frame hx hpr).2.trans hk
    let u : State ι :=
      { t with mem := t.mem.update p fun x => { x with chan := some k.chan, state := .sleeping } }
    have hmark : Step (program P) t (.step p) (u.goto p (.sleepSched k)) := by
      simp only [Step, Spin.step, hpc, Option.bind_some, program, code, exec, u]
    refine .inr ⟨p, _, hmark, hfree, fun hlaw => hne ?_⟩
    have hasleep := hlaw.readers p ⟨by simp [u, Mem.update], by simp [u, Mem.update, hch]⟩
    have hpipe : u.mem.pipe = s.mem.pipe := by
      change t.mem.pipe = s.mem.pipe
      rw [hmem]
    rw [goto_mem, hpipe] at hasleep
    exact hasleep.1
  · refine .inl fun hlaw => hne ?_
    have hread := (hlaw.readers p (by rw [Asleep, hmem]; exact hasleep)).1
    rwa [hmem] at hread

/-- Any processes and any interleaving of the calls in which no `pipewrite` gives up on a full
pipe while a process is asleep on `&p->nread`, or about to be: with `p->lock` free nobody
sleeps while what it waits for has happened. A `pipewrite` that does give up then leaves such
a sleeper behind. -/
theorem pipe_sleepers_wait {P : Procs ι} (hslots : ∀ q, q ∈ P.slots) {s t : State ι}
    {as : List (Label ι)} (hstart : Allocated s)
    (hrun : Run (Guarded (Step (program P)) fun s a => ¬ Abandons s a) s as t) :
    (t.owner .pipe = none → SleepersWait t) ∧
      ∀ a u, Step (program P) t a u → Abandons t a →
        u.owner .pipe = none ∧ (¬ SleepersWait u ∨
          ∃ p v, Step (program P) u (.step p) v ∧ v.owner .pipe = none ∧ ¬ SleepersWait v) := by
  have hheeded : Heeded t := hrun.invariant_of_guarded
    (fun s a t h hok hstep => h.step hslots hok hstep) hstart.heeded
  exact ⟨hheeded.sleepersWait, fun a u hstep habandons => hheeded.abandoned habandons hstep⟩

/-! ## Two runs of three processes -/

/-- A reader asleep on a new pipe. -/
theorem pipe_sleepers_wait_reader :
    ∃ t, Run (Step (program threeProcs)) allocated (.call 1 (.read 1) :: steps 1 7) t ∧
      Asleep t 1 .nread ∧ SleepersWait t := by
  refine Run.exists_of_guarded (fun s _ => ∀ r, s.pc r ≠ some .writeFail) (Run.foundOk id
    (fun t => t.owner .pipe = none ∧ (t.mem.proc 1).state = .sleeping ∧ (t.mem.proc 1).chan = some .nread)
    (by decide +kernel) fun t hrun hall => ?_)
  refine ⟨hall.2, (pipe_sleepers_wait (by decide) allocated_ok (hrun.guarded_mono ?_)).1 hall.1⟩
  rintro s a hok ⟨r, p, -, hr, -⟩
  exact hok r hr

/-- A reader sleeps on the empty pipe, a writer fills it and is killed before it finds it full:
the reader sleeps on with `PIPESIZE` bytes to read and `p->lock` free. -/
theorem pipe_reader_left_asleep :
    ∃ t, Run (Step (program threeProcs)) allocated
        (.call 1 (.read 1) :: steps 1 7 ++ .call 0 (.write (List.replicate 513 7)) :: steps 0 1026 ++
          .call 2 (.kill 1) :: steps 2 3 ++ steps 0 2) t ∧
      t.owner .pipe = none ∧ Asleep t 1 .nread ∧ t.mem.pipe.nread = 0 ∧ t.mem.pipe.nwrite = 512 := by
  exact Run.found id (fun t => t.owner .pipe = none ∧ ((t.mem.proc 1).state = .sleeping ∧
    (t.mem.proc 1).chan = some .nread) ∧ t.mem.pipe.nread = 0 ∧ t.mem.pipe.nwrite = 512)
    (by decide +kernel) fun _ _ h => h

end Xv6.Pipes
