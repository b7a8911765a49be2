import Xv6.Sync.Atomic

/-! # Free mutex slots

`mutex_create` takes a slot with `used = 0` as it finds it. Every such slot is unlocked, without owner
and without waiters as long as no mutex is deleted under a process that is still inside `mutex_lock`
or `cv_wait` on it: that process would take the deleted mutex when it goes on.
-/

namespace Xv6.Sync.Atomic

open Lib

variable {m : Mux} {p : Slot} {r : Option Int × State} {x : Mutex} {s t : State}

/-! ## The invariant -/

/-- Unlocked, without owner and without waiters. -/
def Vacant (x : Mutex) : Prop := x.locked = 0 ∧ x.pid = -1 ∧ x.numWaiters = 0

/-- Asleep in a call on `m`, or woken there and not yet run. -/
def Proc.Inside (x : Proc) (m : Mux) : Prop :=
  (x.state = .sleeping ∨ x.state = .runnable) ∧ (x.place = .lock m ∨ x.place = .wait m)

instance (x : Proc) (m : Mux) : Decidable (x.Inside m) := inferInstanceAs (Decidable (_ ∧ _))

structure MutexOk (x : Mutex) : Prop where
  free : x.used = 0 → Vacant x
  owner : x.locked = 0 → x.pid = -1
  nonneg : 0 ≤ x.numWaiters

structure Tidy (s : State) : Prop where
  mutex : ∀ m, MutexOk (s.mutexes m)
  inside : ∀ q m, (s.procs q).Inside m → (s.mutexes m).used ≠ 0

/-- No `mutex_delete` finds a mutex in use that is not locked and has no waiters while a process is
inside a call on it, and the table is not initialized again. -/
def DeletesAlone (s : State) : Event → Prop
  | .mutexInit _ => False
  | .call _ (.mutexDelete muxid) => ∀ m : Mux, muxid = m.val → (s.mutexes m).used ≠ 0 →
      (s.mutexes m).locked = 0 → (s.mutexes m).numWaiters ≤ 0 → ∀ q, ¬ (s.procs q).Inside m
  | _ => True

instance deletesAlone_decidable (s : State) (e : Event) : Decidable (DeletesAlone s e) :=
  match e with
  | .mutexInit _ => inferInstanceAs (Decidable False)
  | .call _ (.mutexDelete _) => inferInstanceAs (Decidable (∀ _, _ → _ → _ → _ → ∀ _, ¬ _))
  | .call _ .mutexCreate | .call _ (.mutexLock _) | .call _ (.mutexUnlock _) | .call _ (.cvWait _)
  | .call _ (.cvSignal _) | .call _ (.kill _) | .goOn _ | .fork _ | .exec _ | .enter _ _ | .fault _
  | .exit _ | .reap _ => inferInstanceAs (Decidable True)

/-! ## One change -/

section Changes

variable {s : State} {p : Slot} {m : Mux}

@[grind =] theorem mutexes_mutex {k : Mux} (f : Mutex → Mutex) :
    (s.mutex m f).mutexes k = if k = m then f (s.mutexes m) else s.mutexes k := Function.update_apply ..

@[grind =] theorem procs_mutex (f : Mutex → Mutex) : (s.mutex m f).procs = s.procs := rfl

@[simp] theorem mutex_self (f : Mutex → Mutex) :
    (s.mutex m f).mutexes m = f (s.mutexes m) := Function.update_self ..

@[grind =] theorem procs_update {q : Slot} (f : Proc → Proc) :
    (s.update p f).procs q = if q = p then f (s.procs p) else s.procs q := Function.update_apply ..

@[grind =] theorem mutexes_update (f : Proc → Proc) : (s.update p f).mutexes = s.mutexes := rfl

@[simp] theorem update_self (s : State) (p : Slot) (f : Proc → Proc) :
    (s.update p f).procs p = f (s.procs p) := Function.update_self ..

theorem update_of_ne (s : State) {q : Slot} (f : Proc → Proc) (h : q ≠ p) :
    (s.update p f).procs q = s.procs q := Function.update_of_ne h ..

/-- A mutex changes. It must stay in use if a process is inside a call on it. -/
theorem Tidy.change (h : Tidy s) {f : Mutex → Mutex} (hok : MutexOk (f (s.mutexes m)))
    (hused : (f (s.mutexes m)).used = 0 → (s.mutexes m).used = 0 ∨ ∀ q, ¬ (s.procs q).Inside m) :
    Tidy (s.mutex m f) where
  mutex := fun k => by
    have := h.mutex k
    grind
  inside := fun q k hq => by
    have := h.inside q k
    grind

theorem Tidy.procs (h : Tidy s) {procs : Slot → Proc} {n : Int}
    (hinside : ∀ q m, (procs q).Inside m → (s.procs q).Inside m ∨ (s.mutexes m).used ≠ 0) :
    Tidy { s with procs := procs, nextpid := n } :=
  ⟨h.mutex, fun q m hq => (hinside q m hq).elim (h.inside q m) id⟩

theorem Tidy.update (h : Tidy s) {f : Proc → Proc}
    (hinside : ∀ m, (f (s.procs p)).Inside m → (s.procs p).Inside m ∨ (s.mutexes m).used ≠ 0) :
    Tidy (s.update p f) := by
  refine h.procs (n := s.nextpid) fun q m hq => ?_
  grind [Function.update_apply]

theorem not_inside_of_state {x : Proc} (hs : x.state ≠ .sleeping) (hr : x.state ≠ .runnable) :
    ¬ x.Inside m := fun hx => hx.1.elim hs hr

theorem not_inside_user {x : Proc} (hx : x.place = .user) : ¬ x.Inside m := by
  rintro ⟨-, hplace | hplace⟩
  · rw [hx] at hplace
    cases hplace
  · rw [hx] at hplace
    cases hplace

end Changes

/-! ## The calls -/

section Calls

variable {s : State} {p : Slot} {m : Mux} {pid : Int}

section

variable (h : Tidy s)

include h

theorem Tidy.create : Tidy (mutexCreate s p).2 := by
  unfold mutexCreate
  split
  · exact h
  rename_i i hi
  obtain ⟨hlocked, hpid, hwaiters⟩ := (h.mutex i).free (used_of_freeMux hi)
  dsimp only
  refine h.change ⟨fun hused => ?_, fun _ => hpid, hwaiters.ge⟩ fun hused => ?_
  · cases hused
  · cases hused

theorem Tidy.delete (halone : (s.mutexes m).used ≠ 0 → (s.mutexes m).locked = 0 →
      (s.mutexes m).numWaiters ≤ 0 → ∀ q, ¬ (s.procs q).Inside m) : Tidy (mutexDelete s m).2 := by
  unfold mutexDelete
  rcases deleteMux_cases s.mutexes m with ⟨-, hsame⟩ | ⟨hused, hlocked, hwaiters, hdelete⟩
  · rw [hsame]
    exact h
  have hok := h.mutex m
  have hpid := hok.owner hlocked
  have hnone : (s.mutexes m).numWaiters = 0 := Int.le_antisymm hwaiters hok.nonneg
  rw [hdelete]
  exact h.change (f := fun x => { x with locked := 0, used := 0 })
    ⟨fun _ => ⟨rfl, hpid, hnone⟩, fun _ => hpid, hok.nonneg⟩ fun _ => .inr (halone hused hlocked hwaiters)

theorem Tidy.take (hused : (s.mutexes m).used ≠ 0) : Tidy (s.take p m) := by
  have hmutex : Tidy (s.mutex m fun x => { x with locked := 1, pid := (s.procs p).pid }) :=
    h.change ⟨fun hzero => absurd hzero hused, nofun, (h.mutex m).nonneg⟩ .inl
  exact hmutex.update fun _ hq => .inl hq

theorem Tidy.lockLoop (hused : (s.mutexes m).used ≠ 0) : Tidy (lockLoop s p m).2 := by
  unfold Atomic.lockLoop
  split
  · dsimp only
    refine h.update fun k hk => .inr ?_
    rcases hk.2 with hk | hk
    · cases hk
      exact hused
    · cases hk
  · exact h.take hused

theorem Tidy.lock : Tidy (mutexLock s p m).2 := by
  unfold mutexLock
  split
  · exact h
  split
  · exact h
  split
  · exact h
  · rename_i hused _ _
    exact h.lockLoop hused

theorem Tidy.wakeup : Tidy (s.wakeup m) := by
  refine h.procs (n := s.nextpid) fun q k hq => .inl ?_
  split at hq
  · rename_i hsleeps
    exact ⟨.inl hsleeps.1, hq.2⟩
  · exact hq

theorem Tidy.unlock : Tidy (mutexUnlock s p m).2 := by
  unfold mutexUnlock
  split
  · exact h
  split
  · exact h
  rename_i hused _
  have hproc : Tidy (s.update p fun x =>
      { x with procMutexes := replaceFirst m.val (-1) x.procMutexes }) :=
    h.update fun _ hq => .inl hq
  exact (hproc.change ⟨fun hzero => absurd hzero hused, fun _ => rfl, (h.mutex m).nonneg⟩
    .inl).wakeup

theorem Tidy.wait : Tidy (cvWait s p m).2 := by
  unfold cvWait
  split
  · exact h
  split
  · exact h
  split
  · exact h
  rename_i hused _ _
  have hok := h.mutex m
  have hnonneg := hok.nonneg
  have hmutex : Tidy (s.mutex m fun x =>
      { x with
        waiters := Function.update x.waiters x.numWaiters.toNat (s.procs p).pid
        numWaiters := x.numWaiters + 1 }) :=
    h.change ⟨fun hzero => absurd hzero hused, hok.owner, Int.add_nonneg hnonneg Int.one_nonneg⟩ .inl
  dsimp only
  refine hmutex.update fun k hk => .inr ?_
  rcases hk.2 with hk | hk
  · cases hk
  · cases hk
    rw [mutex_self]
    exact hused

theorem Tidy.wakePid : Tidy (s.wakePid pid) := by
  unfold State.wakePid
  split
  · rename_i q hq
    have hsleeps : (s.procs q).state = .sleeping := by
      have hfound := List.find?_some hq
      rw [Bool.and_eq_true, beq_iff_eq, beq_iff_eq] at hfound
      exact hfound.2
    exact h.update fun k hk => .inl ⟨.inl hsleeps, hk.2⟩
  · exact h

theorem Tidy.signal : Tidy (cvSignal s m).2 := by
  unfold cvSignal
  split
  · exact h
  rename_i hsome
  have hok := h.mutex m
  have hpos : 0 < (s.mutexes m).numWaiters := lt_of_le_of_ne hok.nonneg (Ne.symm hsome)
  refine (h.change (f := shiftWaiters) ⟨fun hzero => ?_, hok.owner, Int.le_sub_one_of_lt hpos⟩
    .inl).wakePid
  exact absurd (hok.free hzero).2.2 hsome

theorem Tidy.kill : Tidy (kill s pid).2 := by
  unfold Atomic.kill
  split
  · rename_i q _
    dsimp only
    refine h.update fun k hk => .inl ?_
    refine ⟨?_, hk.2⟩
    have hstate := hk.1
    split at hstate
    · rename_i hsleeps
      exact .inl hsleeps
    · exact hstate
  · exact h

end

theorem Tidy.back (h : Tidy r.2) : Tidy (back p r) := by
  obtain ⟨r, t⟩ := r
  cases r with
  | none => exact h
  | some r =>
    unfold Atomic.back
    dsimp only
    split
    · exact Tidy.update h fun k hk => absurd hk (not_inside_of_state nofun nofun)
    · exact Tidy.update h fun k hk => absurd hk (not_inside_user rfl)

theorem Tidy.call {c : Call} (h : Tidy s) (halone : DeletesAlone s (.call p c)) (hcall : call s p c = some r) :
    Tidy r.2 := by
  cases did_of_call hcall with
  | refused => exact h
  | create => exact h.create
  | delete m => exact h.delete (halone m rfl)
  | lock m => exact h.lock
  | unlock m => exact h.unlock
  | wait m => exact h.wait
  | signal m => exact h.signal
  | kill pid => exact h.kill

theorem Tidy.goOn (h : Tidy s) (hstate : (s.procs p).state = .runnable) (hgo : goOn s p = some r) :
    Tidy r.2 := by
  unfold Atomic.goOn at hgo
  split at hgo
  · cases hgo
  · rename_i m hplace
    cases hgo
    exact h.lockLoop (h.inside p m ⟨.inr hstate, .inl hplace⟩)
  · rename_i m hplace
    cases hgo
    exact h.take (h.inside p m ⟨.inr hstate, .inr hplace⟩)

end Calls

/-! ## Faults -/

section Faults

variable {pid : Int}

structure SameButQueue (x y : Mutex) : Prop where
  locked : y.locked = x.locked
  used : y.used = x.used
  pid : y.pid = x.pid

theorem SameButQueue.refl (x : Mutex) : SameButQueue x x := ⟨rfl, rfl, rfl⟩

theorem SameButQueue.trans {y z : Mutex} (h : SameButQueue x y) (h' : SameButQueue y z) : SameButQueue x z :=
  ⟨h'.locked.trans h.locked, h'.used.trans h.used, h'.pid.trans h.pid⟩

theorem shiftLoop_same (i n j : Nat) (x : Mutex) : SameButQueue x (shiftLoop i n j x) := by
  induction n generalizing j x with
  | zero => exact .refl x
  | succ n ih =>
    unfold shiftLoop
    split
    · exact ⟨(ih ..).locked, (ih ..).used, (ih ..).pid⟩
    · exact .refl x

theorem shiftLoop_nonneg (i n j : Nat) (h : 0 ≤ x.numWaiters) : 0 ≤ (shiftLoop i n j x).numWaiters := by
  induction n generalizing j x with
  | zero => exact h
  | succ n ih =>
    unfold shiftLoop
    split
    · refine ih (j + 1) ?_
      dsimp only
      omega
    · exact h

theorem removeLoop_same (n i : Nat) (x : Mutex) : SameButQueue x (removeLoop pid n i x) := by
  induction n generalizing i x with
  | zero => exact .refl x
  | succ n ih =>
    unfold removeLoop
    split
    · split
      · exact (shiftLoop_same i x.numWaiters.toNat 0 x).trans (ih (i + 1) _)
      · exact ih (i + 1) x
    · exact .refl x

theorem removeLoop_nonneg (n i : Nat) (h : 0 ≤ x.numWaiters) : 0 ≤ (removeLoop pid n i x).numWaiters := by
  induction n generalizing i x with
  | zero => exact h
  | succ n ih =>
    unfold removeLoop
    split
    · refine ih (i + 1) ?_
      split
      · exact shiftLoop_nonneg i _ 0 h
      · exact h
    · exact h

theorem wseqRemove_same (x : Mutex) : SameButQueue x (wseqRemove pid x) := by
  unfold wseqRemove
  split
  · exact .refl x
  · exact removeLoop_same _ 0 x

theorem MutexOk.wseqRemove (h : MutexOk x) : MutexOk (wseqRemove pid x) := by
  have hsame : SameButQueue x (Atomic.wseqRemove pid x) := wseqRemove_same x
  refine ⟨fun hused => ?_, fun hlocked => ?_, ?_⟩
  · rw [hsame.used] at hused
    have hvacant := h.free hused
    unfold Atomic.wseqRemove
    rw [if_pos hvacant.2.2]
    exact hvacant
  · rw [hsame.locked] at hlocked
    rw [hsame.pid]
    exact h.owner hlocked
  · unfold Atomic.wseqRemove
    split
    · exact h.nonneg
    · exact removeLoop_nonneg _ 0 h.nonneg

theorem Tidy.releaseEntry {i : Mux} (h : Tidy s) (hentry : releaseEntry p s i = some t) : Tidy t := by
  unfold Atomic.releaseEntry at hentry
  dsimp only at hentry
  split at hentry
  · cases hentry
    exact h
  obtain ⟨r, hr, rfl⟩ := Option.map_eq_some_iff.mp hentry
  have htidy : Tidy r.2 := by
    rcases withMux_some hr with rfl | ⟨m, -, rfl⟩
    · exact h
    · exact h.unlock
  refine htidy.change (htidy.mutex i).wseqRemove fun hzero => .inl ?_
  rwa [(wseqRemove_same _).used] at hzero

theorem Tidy.releaseMutexes (h : Tidy s) (hrelease : releaseMutexes s p = some t) : Tidy t := by
  unfold Atomic.releaseMutexes at hrelease
  have hkilled : Tidy (s.update p fun x => { x with killed := true }) := h.update fun _ hq => .inl hq
  revert hkilled hrelease
  generalize s.update p (fun x => { x with killed := true }) = s1
  generalize List.finRange muxMaxNum = is
  intro hrelease hkilled
  induction is generalizing s1 with
  | nil =>
    cases hrelease
    exact hkilled
  | cons i is ih =>
    rw [List.foldlM_cons] at hrelease
    obtain ⟨s2, hentry, hrest⟩ := Option.bind_eq_some_iff.mp hrelease
    exact ih s2 hrest (hkilled.releaseEntry hentry)

end Faults

/-! ## Runs -/

theorem Tidy.step {e : Event} (h : Tidy s) (halone : DeletesAlone s e) (hstep : Step s e t) : Tidy t := by
  unfold Step Atomic.step at hstep
  cases e with
  | call p c =>
    obtain ⟨-, hcall⟩ := Option.ite_none_right_eq_some.mp hstep
    obtain ⟨r, hr, rfl⟩ := Option.map_eq_some_iff.mp hcall
    exact (h.call halone hr).back
  | goOn p =>
    obtain ⟨hstate, hgo⟩ := Option.ite_none_right_eq_some.mp hstep
    obtain ⟨r, hr, rfl⟩ := Option.map_eq_some_iff.mp hgo
    exact (h.goOn hstate hr).back
  | mutexInit p => exact halone.elim
  | fork p =>
    obtain ⟨-, hfork⟩ := Option.ite_none_right_eq_some.mp hstep
    cases hfork
    unfold fork
    split
    · exact h
    · exact (h.update fun k hk => absurd hk (not_inside_user rfl)).procs fun _ _ hq => .inl hq
  | exec p =>
    obtain ⟨-, hexec⟩ := Option.ite_none_right_eq_some.mp hstep
    cases hexec
    exact h.update fun _ hq => .inl hq
  | enter p n =>
    obtain ⟨-, henter⟩ := Option.ite_none_right_eq_some.mp hstep
    cases henter
    exact h.update fun _ hq => .inl hq
  | fault p =>
    obtain ⟨-, hfault⟩ := Option.ite_none_right_eq_some.mp hstep
    obtain ⟨t, ht, rfl⟩ := Option.map_eq_some_iff.mp hfault
    exact (h.releaseMutexes ht).update fun k hk => absurd hk (not_inside_of_state nofun nofun)
  | exit p =>
    obtain ⟨-, hexit⟩ := Option.ite_none_right_eq_some.mp hstep
    cases hexit
    exact h.update fun k hk => absurd hk (not_inside_of_state nofun nofun)
  | reap p =>
    obtain ⟨-, hreap⟩ := Option.ite_none_right_eq_some.mp hstep
    cases hreap
    exact h.update fun k hk => absurd hk (not_inside_of_state nofun nofun)

/-- The table as `mutex_init` leaves it, and no process inside a call on a mutex. -/
structure Initialized (s : State) : Prop where
  mutexes : s.mutexes = mutexInit
  outside : ∀ q m, ¬ (s.procs q).Inside m

theorem Initialized.tidy (h : Initialized s) : Tidy s where
  mutex := fun m => by
    rw [h.mutexes]
    exact ⟨fun _ => ⟨rfl, rfl, rfl⟩, fun _ => rfl, le_refl 0⟩
  inside := fun q m hq => absurd hq (h.outside q m)

/-- After `mutex_init`, as long as no mutex is deleted under a process inside a call on it: every
free slot is unlocked, without owner and without waiters, and so is every mutex that `mutex_create`
returns. -/
theorem free_mutexes_vacant {s0 s : State} {es : List Event} (h : Initialized s0)
    (hrun : Run (Guarded Step DeletesAlone) s0 es s) :
    (∀ m, (s.mutexes m).used = 0 → Vacant (s.mutexes m)) ∧
      ∀ p r t, mutexCreate s p = (some r, t) →
        r = -1 ∨ ∃ m : Mux, r = m.val ∧ Vacant (t.mutexes m) := by
  have htidy : Tidy s := hrun.invariant_of_guarded (fun _ _ _ hs => hs.step) h.tidy
  refine ⟨fun m => (htidy.mutex m).free, fun p r t hcreate => ?_⟩
  unfold mutexCreate at hcreate
  split at hcreate
  · cases hcreate
    exact .inl rfl
  rename_i m hm
  cases hcreate
  refine .inr ⟨m, rfl, ?_⟩
  rw [mutex_self]
  exact (htidy.mutex m).free (used_of_freeMux hm)

/-! ## Two processes -/

def twoProcs : State where
  mutexes := mutexInit
  procs := fun q => ⟨if q.val < 2 then .running else .unused, .user,
    if q.val < 2 then q.val + 1 else 0, 0, false, fun _ => -1⟩
  nextpid := 3

theorem twoProcs_initialized : Initialized twoProcs :=
  ⟨rfl, fun _ _ => not_inside_user rfl⟩

/-- A mutex is created, locked, unlocked and deleted with nobody waiting for it. -/
theorem free_mutexes_vacant_session : ∃ s,
    Run (Guarded Step DeletesAlone) twoProcs
      [.call 0 .mutexCreate, .call 0 (.mutexLock 0), .call 0 (.mutexUnlock 0),
        .call 0 (.mutexDelete 0)] s ∧
    (s.mutexes 0).used = 0 ∧ Vacant (s.mutexes 0) := by
  exact Run.foundOk id (fun s => (s.mutexes 0).used = 0) (by decide +kernel)
    fun s hrun hused => ⟨hused, (free_mutexes_vacant twoProcs_initialized hrun).1 0 hused⟩

/-- The first process unlocks and deletes a mutex that the second is asleep on. The second goes on
and locks the free slot, and `mutex_create` returns a mutex that the second one owns. -/
theorem deleted_mutex_locked : ∃ s t,
    Run Step twoProcs
      [.call 0 .mutexCreate, .call 0 (.mutexLock 0), .call 1 (.mutexLock 0), .call 0 (.mutexUnlock 0),
        .call 0 (.mutexDelete 0), .goOn 1] s ∧
    (s.mutexes 0).used = 0 ∧ (s.mutexes 0).locked = 1 ∧ (s.mutexes 0).pid = 2 ∧
    mutexCreate s 0 = (some 0, t) ∧ (t.mutexes 0).locked = 1 ∧ (t.mutexes 0).pid = 2 := by
  simp only [exists_and_left]
  refine Run.found id (fun s => ((s.mutexes 0).used = 0 ∧ (s.mutexes 0).locked = 1 ∧
    (s.mutexes 0).pid = 2) ∧ (mutexCreate s 0).1 = some 0 ∧
      ((mutexCreate s 0).2.mutexes 0).locked = 1 ∧ ((mutexCreate s 0).2.mutexes 0).pid = 2)
    (by decide +kernel) ?_
  rintro s - ⟨⟨hused, hlocked, hpid⟩, hret, hrest⟩
  exact ⟨hused, hlocked, hpid, (mutexCreate s 0).2, Prod.ext hret rfl, hrest⟩

end Xv6.Sync.Atomic
