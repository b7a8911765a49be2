import Xv6.Params
import Xv6.Lib.Search
import Xv6.Lib.Spin

/-! # The synchronization calls of `proc.c`

`mutex_create`, `mutex_delete`, `mutex_lock`, `mutex_unlock`, `cv_wait`, `cv_signal` and
`kill`, cut at every `acquire`, every `release` and every access to memory that another
process may touch at the same time. `sleep` and `wakeup` are inlined where they are called.

A sleeping process gives `ptable.lock` to the scheduler with the processor and gets both
back once it is `RUNNABLE`. Which `RUNNABLE` process the scheduler takes next is left open,
so the ready queues that `wakeup1`, `kill` and `cv_signal` fill are not part of the state.
`strncpy` into `mutex->name` is left out: no call reads the name.
-/

namespace Xv6.Sync

open Lib Lib.Spin

abbrev Mux := Fin muxMaxNum

/-- `struct mutex` with its `struct cv`, less the id, the name and the locks. -/
structure Mutex where
  locked : Nat
  used : Nat
  pid : Int
  nameSpace : Int
  waiters : Nat → Int
  numWaiters : Int

/-! ## The table -/

def mutexInit : Mux → Mutex := fun _ => ⟨0, 0, -1, 0, fun _ => -1, 0⟩

/-- The slot that the loop of `mutex_create` stops at. -/
def freeMux (mutexes : Mux → Mutex) : Option Mux :=
  (List.finRange muxMaxNum).find? fun i => (mutexes i).used == 0

def Mutex.create (x : Mutex) (nameSpace : Int) : Mutex := { x with used := 1, nameSpace := nameSpace }

/-- `mutex_delete` in one piece: what it returns and the table it leaves. -/
def deleteMux (mutexes : Mux → Mutex) (m : Mux) : Int × (Mux → Mutex) :=
  if (mutexes m).used = 0 then (-1, mutexes)
  else if (mutexes m).locked ≠ 0 then (-3, mutexes)
  else if (mutexes m).numWaiters > 0 then (-4, mutexes)
  else (1, Function.update mutexes m { mutexes m with locked := 0, used := 0 })

/-- The range check of the calls on a mutex id. It lets `MUX_MAXNUM` itself through, which is no
index of the table: then there is no result. -/
def withMux {α : Type} (muxid : Int) (err : α) (f : Mux → α) : Option α :=
  if muxid < 0 ∨ muxid > muxMaxNum then some err
  else if h : muxid.toNat < muxMaxNum then some (f ⟨muxid.toNat, h⟩)
  else none

theorem used_of_freeMux {mutexes : Mux → Mutex} {m : Mux} (h : freeMux mutexes = some m) :
    (mutexes m).used = 0 := by
  simpa using List.find?_some h

theorem deleteMux_cases (mutexes : Mux → Mutex) (m : Mux) :
    ((deleteMux mutexes m).1 ≠ 1 ∧ (deleteMux mutexes m).2 = mutexes) ∨
      ((mutexes m).used ≠ 0 ∧ (mutexes m).locked = 0 ∧ (mutexes m).numWaiters ≤ 0 ∧
        deleteMux mutexes m =
          (1, Function.update mutexes m { mutexes m with locked := 0, used := 0 })) := by
  unfold deleteMux
  split
  · exact .inl ⟨by simp, rfl⟩
  split
  · exact .inl ⟨by simp, rfl⟩
  split
  · exact .inl ⟨by simp, rfl⟩
  · exact .inr ⟨‹_›, not_not.mp ‹_›, Int.not_lt.mp ‹_›, rfl⟩

theorem withMux_some {α : Type} {muxid : Int} {err r : α} {f : Mux → α}
    (h : withMux muxid err f = some r) : r = err ∨ ∃ m : Mux, muxid = m.val ∧ r = f m := by
  unfold withMux at h
  split at h
  · cases h
    exact .inl rfl
  split at h
  · rename_i hlt
    cases h
    refine .inr ⟨⟨muxid.toNat, hlt⟩, ?_, rfl⟩
    dsimp only
    omega
  · cases h

theorem withMux_val {α : Type} (m : Mux) (err : α) (f : Mux → α) : withMux m.val err f = some (f m) := by
  unfold withMux
  rw [if_neg (by omega), dif_pos (by omega)]
  rfl

/-! ## The calls -/

/-- The fields of `struct proc` that the calls change; `chan` is the mutex slept on. -/
structure Proc where
  state : ProcState
  chan : Option Mux
  killed : Bool
  procMutexes : Mux → Int

structure Mem (ι : Type) where
  mutexes : Mux → Mutex
  proc : ι → Proc

/-- The processes in the order of `ptable.proc`, and the fields none of the calls changes. -/
structure Table (ι : Type) where
  slots : List ι
  pid : ι → Int
  nameSpace : ι → Int

structure Procs (ι : Type) extends Table ι where
  pid_injective : Function.Injective pid

instance {ι : Type} : Coe (Procs ι) (Table ι) := ⟨Procs.toTable⟩

inductive Lock
  | table
  | mux (m : Mux)
  | cv (m : Mux)
  | ptable
  deriving DecidableEq

/-- Program points; each is named after what happens there. -/
inductive Pc
  | createAcquire | createScan (i : Nat) | createName (m : Mux) | createRelease (m : Mux)
  | deleteAcquire (m : Mux) | deleteUsed (m : Mux) | deleteLocked (m : Mux)
  | deleteWaiters (m : Mux) | deleteClearLocked (m : Mux) | deleteClearUsed (m : Mux)
  | deleteRelease (r : Int) | deleteBusy
  | lockUsed (m : Mux) | lockNameSpace (m : Mux) | lockPid (m : Mux) | lockAcquire (m : Mux)
  | lockTest (m : Mux) | lockSet (m : Mux) | lockSetPid (m : Mux) | lockRecord (m : Mux)
  | lockRelease (m : Mux) | lockDone (m : Mux)
  | sleepAcquire (m : Mux) | sleepRelease (m : Mux) | sleepMark (m : Mux) | sleepSched (m : Mux)
  | sleepWait (m : Mux) | sleepWake (m : Mux) | sleepDone (m : Mux)
  | unlockAcquire (m : Mux) | unlockUsed (m : Mux) | unlockPid (m : Mux) | unlockRecord (m : Mux)
  | unlockClear (m : Mux) | unlockClearPid (m : Mux) | unlockRelease (m : Mux)
  | unlockFail (m : Mux) | wakeupAcquire (m : Mux) | wakeup1 (m : Mux) | wakeupRelease
  | cvAcquire (m : Mux) | cvPtable (m : Mux) | cvUsed (m : Mux) | cvPid (m : Mux) | cvFull (m : Mux)
  | cvEnqueue (m : Mux) | cvMark (m : Mux) | cvRelease (m : Mux) | cvSched (m : Mux) | cvWait (m : Mux)
  | cvReacquire (m : Mux) | cvSet (m : Mux) | cvSetPid (m : Mux) | cvRecord (m : Mux)
  | cvReleaseMux (m : Mux) | cvReleasePtable (m : Mux) | cvDone (m : Mux)
  | cvFailPtable (m : Mux) (r : Int) | cvFailMux (m : Mux) (r : Int) | cvQueueFull (m : Mux)
  | signalAcquire (m : Mux) | signalPtable (m : Mux) | signalTest (m : Mux) | signalShift (m : Mux)
  | signalWake (m : Mux) (pid : Int) | signalReleasePtable (m : Mux) (r : Int)
  | signalReleaseCv (m : Mux) (r : Int)
  | killAcquire (pid : Int) | killFind (pid : Int) | killRelease (r : Int)
  | done (r : Int)
  | outOfBounds
  deriving DecidableEq

inductive Call
  | mutexCreate
  | mutexDelete (muxid : Int)
  | mutexLock (muxid : Int)
  | mutexUnlock (muxid : Int)
  | cvWait (muxid : Int)
  | cvSignal (muxid : Int)
  | kill (pid : Int)
  deriving DecidableEq

/-- The range check and what follows it. -/
def checkMuxid (muxid err : Int) (next : Mux → Pc) : Pc :=
  (withMux muxid (.done err) next).getD .outOfBounds

def entry : Call → Pc
  | .mutexCreate => .createAcquire
  | .mutexDelete muxid => checkMuxid muxid (-2) .deleteAcquire
  | .mutexLock muxid => checkMuxid muxid (-1) .lockUsed
  | .mutexUnlock muxid => checkMuxid muxid (-1) .unlockAcquire
  | .cvWait muxid => checkMuxid muxid (-1) .cvAcquire
  | .cvSignal muxid => checkMuxid muxid (-1) .signalAcquire
  | .kill pid => .killAcquire pid

variable {ι : Type} [DecidableEq ι]

def Mem.mutex (m : Mux) (f : Mutex → Mutex) (s : Mem ι) : Mem ι :=
  { s with mutexes := Function.update s.mutexes m (f (s.mutexes m)) }

def Mem.update (p : ι) (f : Proc → Proc) (s : Mem ι) : Mem ι :=
  { s with proc := Function.update s.proc p (f (s.proc p)) }

def Mem.wakeup1 (P : Table ι) (m : Mux) (s : Mem ι) : Mem ι :=
  { s with proc := fun q =>
      if q ∈ P.slots ∧ (s.proc q).state = .sleeping ∧ (s.proc q).chan = some m then
        { s.proc q with state := .runnable }
      else s.proc q }

def Mem.wakePid (P : Table ι) (pid : Int) (s : Mem ι) : Mem ι :=
  match P.slots.find? fun q => P.pid q == pid && (s.proc q).state == .sleeping with
  | some q => s.update q fun x => { x with state := .runnable }
  | none => s

/-- The loop of `kill`; the process found is marked. -/
def Mem.kill (P : Table ι) (pid : Int) (s : Mem ι) : Mem ι :=
  match P.slots.find? fun q => P.pid q == pid with
  | some q => s.update q fun x =>
    { x with killed := true, state := if x.state = .sleeping then .runnable else x.state }
  | none => s

/-- The shift loop of `cv_signal`: entries `1 .. num_waiters - 1` move down by one. -/
def shiftWaiters (x : Mutex) : Mutex :=
  { x with
    waiters := fun i => if (i : Int) < x.numWaiters - 1 then x.waiters (i + 1) else x.waiters i
    numWaiters := x.numWaiters - 1 }

variable {P : Table ι} {s : Mem ι} {m : Mux} {pid : Int}

omit [DecidableEq ι] in
theorem Mem.mutex_mutexes {k : Mux} (f : Mutex → Mutex) :
    (s.mutex k f).mutexes m = if k = m then f (s.mutexes m) else s.mutexes m := by
  by_cases h : k = m
  · subst h
    simp [Mem.mutex]
  · simp [Mem.mutex, h, Ne.symm h]

@[simp] theorem Mem.update_mutexes (p : ι) (f : Proc → Proc) : (s.update p f).mutexes = s.mutexes := rfl

theorem Mem.update_proc_of_ne {p q : ι} (h : q ≠ p) (f : Proc → Proc) (s : Mem ι) :
    (s.update p f).proc q = s.proc q := Function.update_of_ne h ..

@[simp] theorem Mem.wakeup1_mutexes : (s.wakeup1 P m).mutexes = s.mutexes := rfl

@[simp] theorem Mem.wakePid_mutexes :
    (s.wakePid P pid).mutexes = s.mutexes := by
  unfold Mem.wakePid
  split <;> rfl

@[simp] theorem Mem.kill_mutexes :
    (s.kill P pid).mutexes = s.mutexes := by
  unfold Mem.kill
  split <;> rfl

def code (P : Table ι) (p : ι) : Pc → Instr Lock Pc (Mem ι)
  -- mutex_create
  | .createAcquire => .acquire .table (.createScan 0)
  | .createScan i =>
    if h : i < muxMaxNum then
      .access (fun s => if (s.mutexes ⟨i, h⟩).used = 0 then
          s.mutex ⟨i, h⟩ fun x => { x with used := 1 } else s)
        (fun s => if (s.mutexes ⟨i, h⟩).used = 0 then .createName ⟨i, h⟩ else .createScan (i + 1))
    else .release .table (.done (-1))
  | .createName m =>
    .access (fun s => s.mutex m fun x => { x with nameSpace := P.nameSpace p })
      fun _ => .createRelease m
  | .createRelease m => .release .table (.done m)
  -- mutex_delete
  | .deleteAcquire m => .acquire .table (.deleteUsed m)
  | .deleteUsed m => .access id fun s =>
    if (s.mutexes m).used = 0 then .deleteRelease (-1) else .deleteLocked m
  | .deleteLocked m => .access id fun s =>
    if (s.mutexes m).locked ≠ 0 then .deleteRelease (-3) else .deleteWaiters m
  | .deleteWaiters m => .access id fun s =>
    if (s.mutexes m).numWaiters > 0 then .deleteBusy else .deleteClearLocked m
  | .deleteClearLocked m =>
    .access (fun s => s.mutex m fun x => { x with locked := 0 }) fun _ => .deleteClearUsed m
  | .deleteClearUsed m =>
    .access (fun s => s.mutex m fun x => { x with used := 0 }) fun _ => .deleteRelease 1
  | .deleteRelease r => .release .table (.done r)
  | .deleteBusy => .ret (-4)
  -- mutex_lock
  | .lockUsed m => .access id fun s => if (s.mutexes m).used = 0 then .done (-1) else .lockNameSpace m
  | .lockNameSpace m => .access id fun s =>
    if (s.mutexes m).nameSpace ≠ P.nameSpace p then .done (-2) else .lockPid m
  | .lockPid m => .access id fun s =>
    if (s.mutexes m).pid = P.pid p then .done (-3) else .lockAcquire m
  | .lockAcquire m => .acquire (.mux m) (.lockTest m)
  | .lockTest m => .access id fun s =>
    if (s.mutexes m).locked ≠ 0 then .sleepAcquire m else .lockSet m
  | .lockSet m => .access (fun s => s.mutex m fun x => { x with locked := 1 }) fun _ => .lockSetPid m
  | .lockSetPid m =>
    .access (fun s => s.mutex m fun x => { x with pid := P.pid p }) fun _ => .lockRecord m
  | .lockRecord m =>
    .access (fun s => s.update p fun x =>
      { x with procMutexes := replaceFirst (-1) m x.procMutexes }) fun _ => .lockRelease m
  | .lockRelease m => .release (.mux m) (.lockDone m)
  | .lockDone _ => .ret 1
  -- sleep(mutex, &mutex->lock)
  | .sleepAcquire m => .acquire .ptable (.sleepRelease m)
  | .sleepRelease m => .release (.mux m) (.sleepMark m)
  | .sleepMark m =>
    .access (fun s => s.update p fun x => { x with chan := some m, state := .sleeping })
      fun _ => .sleepSched m
  | .sleepSched m => .sched .ptable (.sleepWait m)
  | .sleepWait m => .resume .ptable (fun s => (s.proc p).state == .runnable)
      (fun s => s.update p fun x => { x with state := .running }) (.sleepWake m)
  | .sleepWake m => .access (fun s => s.update p fun x => { x with chan := none }) fun _ => .sleepDone m
  | .sleepDone m => .release .ptable (.lockAcquire m)
  -- mutex_unlock
  | .unlockAcquire m => .acquire (.mux m) (.unlockUsed m)
  | .unlockUsed m => .access id fun s => if (s.mutexes m).used = 0 then .unlockFail m else .unlockPid m
  | .unlockPid m => .access id fun s =>
    if (s.mutexes m).pid ≠ P.pid p then .unlockFail m else .unlockRecord m
  | .unlockRecord m =>
    .access (fun s => s.update p fun x =>
      { x with procMutexes := replaceFirst m (-1) x.procMutexes }) fun _ => .unlockClear m
  | .unlockClear m =>
    .access (fun s => s.mutex m fun x => { x with locked := 0 }) fun _ => .unlockClearPid m
  | .unlockClearPid m =>
    .access (fun s => s.mutex m fun x => { x with pid := -1 }) fun _ => .unlockRelease m
  | .unlockRelease m => .release (.mux m) (.wakeupAcquire m)
  | .unlockFail m => .release (.mux m) (.done (-1))
  -- wakeup(mutex)
  | .wakeupAcquire m => .acquire .ptable (.wakeup1 m)
  | .wakeup1 m => .access (Mem.wakeup1 P m) fun _ => .wakeupRelease
  | .wakeupRelease => .release .ptable (.done 1)
  -- cv_wait
  | .cvAcquire m => .acquire (.mux m) (.cvPtable m)
  | .cvPtable m => .acquire .ptable (.cvUsed m)
  | .cvUsed m => .access id fun s => if (s.mutexes m).used = 0 then .cvFailPtable m (-1) else .cvPid m
  | .cvPid m => .access id fun s =>
    if (s.mutexes m).pid = P.pid p then .cvFailPtable m (-3) else .cvFull m
  | .cvFull m => .access id fun s =>
    if (s.mutexes m).numWaiters = muxMaxNum then .cvQueueFull m else .cvEnqueue m
  | .cvEnqueue m =>
    .access (fun s => s.mutex m fun x =>
      { x with
        waiters := Function.update x.waiters x.numWaiters.toNat (P.pid p)
        numWaiters := x.numWaiters + 1 }) fun _ => .cvMark m
  | .cvMark m => .access (fun s => s.update p fun x => { x with state := .sleeping }) fun _ => .cvRelease m
  | .cvRelease m => .release (.mux m) (.cvSched m)
  | .cvSched m => .sched .ptable (.cvWait m)
  | .cvWait m => .resume .ptable (fun s => (s.proc p).state == .runnable)
      (fun s => s.update p fun x => { x with state := .running }) (.cvReacquire m)
  | .cvReacquire m => .acquire (.mux m) (.cvSet m)
  | .cvSet m => .access (fun s => s.mutex m fun x => { x with locked := 1 }) fun _ => .cvSetPid m
  | .cvSetPid m =>
    .access (fun s => s.mutex m fun x => { x with pid := P.pid p }) fun _ => .cvRecord m
  | .cvRecord m =>
    .access (fun s => s.update p fun x =>
      { x with procMutexes := replaceFirst (-1) m x.procMutexes }) fun _ => .cvReleaseMux m
  | .cvReleaseMux m => .release (.mux m) (.cvReleasePtable m)
  | .cvReleasePtable m => .release .ptable (.cvDone m)
  | .cvDone _ => .ret 1
  | .cvFailPtable m r => .release .ptable (.cvFailMux m r)
  | .cvFailMux m r => .release (.mux m) (.done r)
  | .cvQueueFull _ => .ret (-1)
  -- cv_signal
  | .signalAcquire m => .acquire (.cv m) (.signalPtable m)
  | .signalPtable m => .acquire .ptable (.signalTest m)
  | .signalTest m => .access id fun s =>
    if (s.mutexes m).numWaiters = 0 then .signalReleasePtable m 0 else .signalShift m
  | .signalShift m =>
    .access (fun s => s.mutex m shiftWaiters) fun s => .signalWake m ((s.mutexes m).waiters 0)
  | .signalWake m pid => .access (Mem.wakePid P pid) fun _ => .signalReleasePtable m 1
  | .signalReleasePtable m r => .release .ptable (.signalReleaseCv m r)
  | .signalReleaseCv m r => .release (.cv m) (.done r)
  -- kill
  | .killAcquire pid => .acquire .ptable (.killFind pid)
  | .killFind pid => .access (Mem.kill P pid) fun _ =>
    .killRelease (if (P.slots.find? fun q => P.pid q == pid).isSome then 0 else -1)
  | .killRelease r => .release .ptable (.done r)
  | .done r => .ret r
  | .outOfBounds => .stop

abbrev State (ι : Type) := Lib.Spin.State ι Lock Pc (Mem ι)

abbrev Label (ι : Type) := Lib.Spin.Label ι Call

def program (P : Table ι) : Program ι Call Lock Pc (Mem ι) := ⟨entry, code P⟩

/-- The locks a call has taken when it is at a program point. -/
def locksAt : Pc → Finset Lock
  | .createScan _ | .createName _ | .createRelease _ | .deleteUsed _ | .deleteLocked _
  | .deleteWaiters _ | .deleteClearLocked _ | .deleteClearUsed _ | .deleteRelease _
  | .deleteBusy => {.table}
  | .lockTest m | .lockSet m | .lockSetPid m | .lockRecord m | .lockRelease m | .sleepAcquire m
  | .unlockUsed m | .unlockPid m | .unlockRecord m | .unlockClear m | .unlockClearPid m
  | .unlockRelease m | .unlockFail m | .cvPtable m | .cvFailMux m _ => {.mux m}
  | .sleepRelease m | .cvUsed m | .cvPid m | .cvFull m | .cvEnqueue m | .cvMark m | .cvRelease m
  | .cvSet m | .cvSetPid m | .cvRecord m | .cvReleaseMux m | .cvFailPtable m _
  | .cvQueueFull m => {.mux m, .ptable}
  | .sleepMark _ | .sleepSched _ | .sleepWake _ | .sleepDone _ | .wakeup1 _ | .wakeupRelease
  | .cvSched _ | .cvReacquire _ | .cvReleasePtable _ | .killFind _ | .killRelease _ => {.ptable}
  | .signalPtable m | .signalReleaseCv m _ => {.cv m}
  | .signalTest m | .signalShift m | .signalWake m _ | .signalReleasePtable m _ => {.cv m, .ptable}
  | _ => ∅

end Xv6.Sync
