import Xv6.Lib.Transition
import Xv6.Sync.LockBalance
import Xv6.ProcTable

/-! # The mutex calls between their sleeps

The calls of `proc.c` on mutexes, each run in one piece up to its return or its sleep, over a process
table in which processes are forked, replace their program, fault and exit. Spin locks are left out:
a call that returns with one held goes on here as if it were free, so there are more runs here than
the kernel has. Which `RUNNABLE` process goes on next is left open.
-/

namespace Xv6.Sync.Atomic

open Lib

abbrev Slot := Fin nproc

/-- Where a process goes on: in user mode, in the loop of `mutex_lock` after its `sleep`, or in
`cv_wait` after its `sched`. -/
inductive Place
  | user
  | lock (m : Mux)
  | wait (m : Mux)
  deriving DecidableEq

structure Proc where
  state : ProcState
  place : Place
  pid : Int
  nameSpace : Int
  killed : Bool
  procMutexes : Mux → Int

structure State where
  mutexes : Mux → Mutex
  procs : Slot → Proc
  nextpid : Int

def State.mutex (s : State) (m : Mux) (f : Mutex → Mutex) : State :=
  { s with mutexes := Function.update s.mutexes m (f (s.mutexes m)) }

def State.update (s : State) (p : Slot) (f : Proc → Proc) : State :=
  { s with procs := Function.update s.procs p (f (s.procs p)) }

/-! ## The calls

Each gives what it returns, or nothing if the process has gone to sleep.
-/

def mutexCreate (s : State) (p : Slot) : Option Int × State :=
  match freeMux s.mutexes with
  | none => (some (-1), s)
  | some i => (some i.val, s.mutex i fun x => x.create (s.procs p).nameSpace)

def mutexDelete (s : State) (m : Mux) : Option Int × State :=
  (some (deleteMux s.mutexes m).1, { s with mutexes := (deleteMux s.mutexes m).2 })

/-- The last part of `mutex_lock` and `cv_wait`: the mutex is taken and recorded. -/
def State.take (s : State) (p : Slot) (m : Mux) : State :=
  (s.mutex m fun x => { x with locked := 1, pid := (s.procs p).pid }).update p fun x =>
    { x with procMutexes := replaceFirst (-1) m.val x.procMutexes }

/-- `mutex_lock(m)` by `p`, from its loop on. -/
def lockLoop (s : State) (p : Slot) (m : Mux) : Option Int × State :=
  if (s.mutexes m).locked ≠ 0 then
    (none, s.update p fun x => { x with state := .sleeping, place := .lock m })
  else (some 1, s.take p m)

def mutexLock (s : State) (p : Slot) (m : Mux) : Option Int × State :=
  if (s.mutexes m).used = 0 then (some (-1), s)
  else if (s.mutexes m).nameSpace ≠ (s.procs p).nameSpace then (some (-2), s)
  else if (s.mutexes m).pid = (s.procs p).pid then (some (-3), s)
  else lockLoop s p m

def State.wakeup (s : State) (m : Mux) : State :=
  { s with procs := fun q =>
      if (s.procs q).state = .sleeping ∧ (s.procs q).place = .lock m then
        { s.procs q with state := .runnable }
      else s.procs q }

def mutexUnlock (s : State) (p : Slot) (m : Mux) : Option Int × State :=
  if (s.mutexes m).used = 0 then (some (-1), s)
  else if (s.mutexes m).pid ≠ (s.procs p).pid then (some (-1), s)
  else
    let s := s.update p fun x => { x with procMutexes := replaceFirst m.val (-1) x.procMutexes }
    let s := s.mutex m fun x => { x with locked := 0, pid := -1 }
    (some 1, s.wakeup m)

def cvWait (s : State) (p : Slot) (m : Mux) : Option Int × State :=
  if (s.mutexes m).used = 0 then (some (-1), s)
  else if (s.mutexes m).pid = (s.procs p).pid then (some (-3), s)
  else if (s.mutexes m).numWaiters = muxMaxNum then (some (-1), s)
  else
    let s := s.mutex m fun x =>
      { x with
        waiters := Function.update x.waiters x.numWaiters.toNat (s.procs p).pid
        numWaiters := x.numWaiters + 1 }
    (none, s.update p fun x => { x with state := .sleeping, place := .wait m })

def State.wakePid (s : State) (pid : Int) : State :=
  match (List.finRange nproc).find? fun q =>
      (s.procs q).pid == pid && (s.procs q).state == .sleeping with
  | some q => s.update q fun x => { x with state := .runnable }
  | none => s

def cvSignal (s : State) (m : Mux) : Option Int × State :=
  if (s.mutexes m).numWaiters = 0 then (some 0, s)
  else (some 1, (s.mutex m shiftWaiters).wakePid ((s.mutexes m).waiters 0))

def kill (s : State) (pid : Int) : Option Int × State :=
  match (List.finRange nproc).find? fun q => (s.procs q).pid == pid with
  | some q => (some 0, s.update q fun x =>
    { x with killed := true, state := if x.state = .sleeping then .runnable else x.state })
  | none => (some (-1), s)

def call (s : State) (p : Slot) : Call → Option (Option Int × State)
  | .mutexCreate => some (mutexCreate s p)
  | .mutexDelete muxid => withMux muxid (some (-2), s) (mutexDelete s)
  | .mutexLock muxid => withMux muxid (some (-1), s) (mutexLock s p)
  | .mutexUnlock muxid => withMux muxid (some (-1), s) (mutexUnlock s p)
  | .cvWait muxid => withMux muxid (some (-1), s) (cvWait s p)
  | .cvSignal muxid => withMux muxid (some (-1), s) (cvSignal s)
  | .kill pid => some (kill s pid)

/-- What a call did: it refused the id, or ran on a mutex. -/
inductive Did (s : State) (p : Slot) : Call → Option Int × State → Prop
  | refused {c : Call} {r : Int} (h : entry c = .done r) : Did s p c (some r, s)
  | create : Did s p .mutexCreate (mutexCreate s p)
  | delete (m : Mux) : Did s p (.mutexDelete m) (mutexDelete s m)
  | lock (m : Mux) : Did s p (.mutexLock m) (mutexLock s p m)
  | unlock (m : Mux) : Did s p (.mutexUnlock m) (mutexUnlock s p m)
  | wait (m : Mux) : Did s p (.cvWait m) (cvWait s p m)
  | signal (m : Mux) : Did s p (.cvSignal m) (cvSignal s m)
  | kill (pid : Int) : Did s p (.kill pid) (kill s pid)

theorem did_of_call {s : State} {p : Slot} {c : Call} {x : Option Int × State} (h : call s p c = some x) :
    Did s p c x := by
  have hcheck : ∀ {muxid err : Int} {next : Mux → Pc} {f : Mux → Option Int × State},
      withMux muxid (some err, s) f = some x → entry c = checkMuxid muxid err next →
      (∀ m : Mux, (m : Int) = muxid → Did s p c (f m)) → Did s p c x := by
    intro muxid err next f h hentry hm
    unfold checkMuxid at hentry
    unfold withMux at h hentry
    split at h
    · cases h
      rw [if_pos ‹_›] at hentry
      exact .refused hentry
    split at h
    · cases h
      exact hm _ (Int.toNat_of_nonneg (by omega))
    · cases h
  cases c with
  | mutexCreate =>
    cases h
    exact .create
  | mutexDelete muxid => exact hcheck h rfl fun m hm => hm ▸ .delete m
  | mutexLock muxid => exact hcheck h rfl fun m hm => hm ▸ .lock m
  | mutexUnlock muxid => exact hcheck h rfl fun m hm => hm ▸ .unlock m
  | cvWait muxid => exact hcheck h rfl fun m hm => hm ▸ .wait m
  | cvSignal muxid => exact hcheck h rfl fun m hm => hm ▸ .signal m
  | kill pid =>
    cases h
    exact .kill pid

/-- The rest of a call after the sleep of `p`. -/
def goOn (s : State) (p : Slot) : Option (Option Int × State) :=
  match (s.procs p).place with
  | .user => none
  | .lock m => some (lockLoop s p m)
  | .wait m => some (some 1, s.take p m)

/-! ## Faults -/

/-- The inner loop of `wseq_remove` at entry `i`, from `j` on; it has at most `num_waiters` rounds. -/
def shiftLoop (i : Nat) : Nat → Nat → Mutex → Mutex
  | 0, _, x => x
  | n + 1, j, x =>
    if (j : Int) < x.numWaiters - i - 1 then
      shiftLoop i n (j + 1)
        { x with
          waiters := Function.update x.waiters j (x.waiters (j + 1))
          numWaiters := x.numWaiters - 1 }
    else x

/-- The outer loop of `wseq_remove`, from entry `i` on. -/
def removeLoop (pid : Int) : Nat → Nat → Mutex → Mutex
  | 0, _, x => x
  | n + 1, i, x =>
    if (i : Int) < x.numWaiters then
      removeLoop pid n (i + 1)
        (if x.waiters i = pid then shiftLoop i x.numWaiters.toNat 0 x else x)
    else x

def wseqRemove (pid : Int) (x : Mutex) : Mutex :=
  if x.numWaiters = 0 then x else removeLoop pid x.numWaiters.toNat 0 x

/-- The round of `trap` for one entry of `proc_mutexes`. `wseq_remove` gets the index of the entry,
not the mutex in it. -/
def releaseEntry (p : Slot) (s : State) (i : Mux) : Option State :=
  let muxid := (s.procs p).procMutexes i
  if muxid = -1 then some s
  else (withMux muxid (some (-1), s) (mutexUnlock s p)).map fun r =>
    r.2.mutex i (wseqRemove (s.procs p).pid)

/-- The default branch of `trap` for `p` in user mode. -/
def releaseMutexes (s : State) (p : Slot) : Option State :=
  (List.finRange muxMaxNum).foldlM (releaseEntry p) (s.update p fun x => { x with killed := true })

/-! ## Runs -/

inductive Event
  | call (p : Slot) (c : Call)
  /-- `p` goes on after its sleep. -/
  | goOn (p : Slot)
  | mutexInit (p : Slot)
  | fork (p : Slot)
  | exec (p : Slot)
  /-- `p` enters a container with the given namespace. -/
  | enter (p : Slot) (nameSpace : Int)
  | fault (p : Slot)
  | exit (p : Slot)
  /-- `wait` finds the zombie `p`. -/
  | reap (p : Slot)
  deriving DecidableEq

def Proc.InUser (x : Proc) : Prop := x.state = .running ∧ x.place = .user

instance (x : Proc) : Decidable x.InUser := inferInstanceAs (Decidable (_ ∧ _))

def State.exit (s : State) (p : Slot) : State := s.update p fun x => { x with state := .zombie }

/-- The way back from a call that has returned: to user mode, or to `exit` for a killed process. -/
def back (p : Slot) : Option Int × State → State
  | (none, t) => t
  | (some _, t) =>
    if (t.procs p).killed then t.exit p
    else t.update p fun x => { x with state := .running, place := .user }

/-- `fork()` by `p`. The child keeps the `proc_mutexes` of its slot. -/
def fork (s : State) (p : Slot) : State :=
  match freeSlot fun q => (s.procs q).state with
  | none => s
  | some q =>
    { s.update q fun x =>
        { x with
          state := .running
          place := .user
          pid := s.nextpid
          nameSpace := (s.procs p).nameSpace } with
      nextpid := s.nextpid + 1 }

def step (s : State) : Event → Option State
  | .call p c =>
    if (s.procs p).InUser ∧ (s.procs p).killed = false then (call s p c).map (back p) else none
  | .goOn p => if (s.procs p).state = .runnable then (goOn s p).map (back p) else none
  | .mutexInit p => if (s.procs p).InUser then some { s with mutexes := mutexInit } else none
  | .fork p => if (s.procs p).InUser then some (fork s p) else none
  | .exec p =>
    if (s.procs p).InUser then some (s.update p fun x => { x with procMutexes := fun _ => -1 })
    else none
  | .enter p n =>
    if (s.procs p).InUser then some (s.update p fun x => { x with nameSpace := n }) else none
  | .fault p => if (s.procs p).InUser then (releaseMutexes s p).map fun t => t.exit p else none
  | .exit p => if (s.procs p).InUser then some (s.exit p) else none
  | .reap p =>
    if (s.procs p).state = .zombie then
      some (s.update p fun x => { x with state := .unused, pid := 0, killed := false })
    else none

abbrev Step (s : State) (e : Event) (t : State) : Prop := step s e = some t

end Xv6.Sync.Atomic
