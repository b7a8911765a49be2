import Mathlib.Logic.Function.Basic
import Xv6.CString
import Xv6.ProcTable
import Xv6.Lib.Transition
import Xv6.Sched.ReadyQueue

/-! # The process table of `proc.c` under any number of processors

`fork`, `exit`, `wait`, `sleep`, `wakeup`, `kill`, `yield`, `scheduler`, `prio_set`, the calls of
the container module, and what `cv_wait` and `cv_signal` do to the table. What runs under
`ptable.lock` is one step, up to the `release` or to the `swtch`. What `fork`, `allocproc` and
`exit` do without the lock is cut where another processor can see the difference, and a
process may be preempted at every such cut.

`kstack`, `pgdir`, `tf`, `context` and `next` are left out of `struct proc`. Files and inodes
are names.
-/

namespace Xv6.Ptable

/-- An index into `ptable.proc`: a `struct proc *`. -/
abbrev Slot := Fin nproc

abbrev nofile : Nat := 16
abbrev nameLen : Nat := 16

/-- What a process may sleep on: a process, in `wait`, or some other address. -/
inductive Chan
  | proc (p : Slot)
  | other (n : Nat)
  deriving DecidableEq

structure ShmMapping where
  name : CString
  va : Nat

structure Proc where
  sz : Nat
  state : ProcState
  pid : Int
  parent : Option Slot
  chan : Option Chan
  killed : Bool
  ofile : Fin nofile → Option Nat
  cwd : Option Nat
  name : Fin nameLen → UInt8
  maxproc : Int
  maxprocset : Int
  newrootInode : Option Nat
  inNewroot : Int
  inContainer : Int
  nameSpace : Int
  procMutexes : Fin muxMaxNum → Int
  shm : Fin shmMaxNum → ShmMapping
  fpPriority : Int
  hfsPriority : Int
  queueType : Int

/-- How far a process is in a `fork` or an `exit`; `np` is the child. -/
inductive Doing
  | user
  | allocated (np : Slot)
  | initialised (np : Slot)
  | inherited (np : Slot)
  | copied (np : Slot)
  | exiting
  deriving DecidableEq

/-- Where a process was switched away from, if it was. A process `scanning` is in the loop of
`wait`, with `ptable.lock`; one that is `stuck` came back from `cv_wait` with the lock. -/
inductive Parked
  | onCpu
  | newborn
  | yielded
  | slept
  | waiting
  | scanning
  | cvWaiting
  | exited
  | stuck
  deriving DecidableEq

/-- Where a processor is in `scheduler()`: before the `acquire`, switched to a process from the
queues, at a round of the loop over the table, or switched to a process from there. -/
inductive CpuPc
  | idle
  | queueRun
  | scan (i : Nat)
  | scanRun (i : Nat)
  deriving DecidableEq

structure Cpu where
  proc : Option Slot
  pc : CpuPc
  deriving DecidableEq

/-- `lock` is the processor that holds `ptable.lock`. -/
structure State (κ : Type) where
  procs : Slot → Proc
  nextpid : Int
  namespaceId : Int
  initproc : Slot
  queues : Sched.ReadyQueues Slot
  lock : Option κ
  cpus : κ → Cpu
  doing : Slot → Doing
  parked : Slot → Parked

/-- One processor. -/
instance one_neZero : NeZero 1 := ⟨by decide⟩

def incr (n : Int) : Int := (n + 1).bmod (2 ^ 32)

variable {κ : Type}

namespace State

def update (s : State κ) (p : Slot) (f : Proc → Proc) : State κ :=
  { s with procs := Function.update s.procs p (f (s.procs p)) }

/-! ## Queues and wake-ups -/

def fpEnqueue (s : State κ) (p : Slot) : State κ :=
  { s with queues := (Sched.fpEnqueue s.queues p (s.procs p).state (s.procs p).fpPriority).2 }

def hfsEnqueue (s : State κ) (p : Slot) : State κ :=
  let r := Sched.hfsEnqueue s.queues p (s.procs p).state (s.procs p).hfsPriority
  { s.update p fun x => { x with hfsPriority := r.2.2 } with queues := r.2.1 }

/-- The branches on `queueType` that `wakeup1` and `kill` share. -/
def requeue (s : State κ) (p : Slot) : State κ :=
  if (s.procs p).queueType = 0 then s.fpEnqueue p
  else if (s.procs p).queueType = 1 then
    (s.update p fun x => { x with hfsPriority := 0 }).hfsEnqueue p
  else s

def wakeRound (chan : Option Chan) (s : State κ) (p : Slot) : State κ :=
  let s := if (s.procs p).state = .sleeping ∧ (s.procs p).chan = chan then
      s.update p fun x => { x with state := .runnable } else s
  s.requeue p

def wakeup1 (s : State κ) (chan : Option Chan) : State κ :=
  (List.finRange nproc).foldl (wakeRound chan) s

def findPid (s : State κ) (pid : Int) : Option Slot :=
  (List.finRange nproc).find? fun p => (s.procs p).pid == pid

/-- `kill(pid)`; slots are searched by `pid` whatever their state. -/
def kill (s : State κ) (pid : Int) : State κ :=
  match s.findPid pid with
  | none => s
  | some p =>
    (s.update p fun x =>
      { x with killed := true, state := if x.state = .sleeping then .runnable else x.state }).requeue p

/-- The wake-up loop of `cv_signal`, for the `pid` taken off the wait queue. -/
def cvSignal (s : State κ) (pid : Int) : State κ :=
  match (List.finRange nproc).find? fun p =>
      (s.procs p).pid == pid && (s.procs p).state == .sleeping with
  | none => s
  | some p => (s.update p fun x => { x with state := .runnable }).fpEnqueue p

/-! ## `fork` -/

def freeSlot (s : State κ) : Option Slot := Xv6.freeSlot fun q => (s.procs q).state

/-- The locked part of `allocproc()`, in a `fork` by `p`. -/
def forkAlloc (s : State κ) (p : Slot) : State κ :=
  match s.freeSlot with
  | none => s
  | some np =>
    { s.update np fun x => { x with state := .embryo, pid := s.nextpid } with
      nextpid := incr s.nextpid
      doing := Function.update s.doing p (.allocated np) }

/-- A `fork` by `p` that fails after `allocproc` has taken the slot: `kalloc` in `allocproc`, or
`copyuvm`, found no memory. -/
def forkFail (s : State κ) (p np : Slot) : State κ :=
  { s.update np fun x => { x with state := .unused } with doing := Function.update s.doing p .user }

/-- The rest of `allocproc()`. Its `memset` of `p->shm` has its arguments swapped and changes
nothing. -/
def forkInit (s : State κ) (p np : Slot) : State κ :=
  { s.update np fun x =>
      { x with
        maxproc := 0
        maxprocset := 0
        newrootInode := none
        inNewroot := 0
        inContainer := 0
        nameSpace := 0 } with
    doing := Function.update s.doing p (.initialised np) }

/-- `fork`, from the return of `allocproc` to the call of `copyuvm`. -/
def forkInherit (s : State κ) (p np : Slot) : State κ :=
  let cur := s.procs p
  { s.update np fun x =>
      { x with
        maxprocset := cur.maxprocset
        maxproc := cur.maxproc
        inNewroot := cur.inNewroot
        inContainer := cur.inContainer
        nameSpace := cur.nameSpace
        newrootInode := if cur.inNewroot ≠ 0 then cur.newrootInode else none } with
    doing := Function.update s.doing p (.inherited np) }

/-- The number of characters before the `NUL`, at most `nameLen - 1`. -/
def nameEnd (t : Fin nameLen → UInt8) : Nat :=
  (((List.finRange nameLen).find? fun i => decide (i.val < nameLen - 1) && t i == 0).map
    Fin.val).getD (nameLen - 1)

/-- `safestrcpy(s, t, 16)`: the characters, the `NUL`, and one more zero byte behind it. -/
def safestrcpy (s t : Fin nameLen → UInt8) : Fin nameLen → UInt8 := fun i =>
  if i.val < nameEnd t then t i else if i.val ≤ nameEnd t + 1 then 0 else s i

/-- `fork`, from the return of `copyuvm` to the `acquire`. -/
def forkCopy (s : State κ) (p np : Slot) : State κ :=
  let cur := s.procs p
  { s.update np fun x =>
      { x with
        sz := cur.sz
        parent := some p
        shm := cur.shm
        ofile := fun i => if (cur.ofile i).isSome then cur.ofile i else x.ofile i
        cwd := cur.cwd
        name := safestrcpy x.name cur.name } with
    doing := Function.update s.doing p (.copied np) }

/-- The branches on the parent's `queueType` at the end of `fork`. -/
def forkEnqueue (s : State κ) (par np : Slot) : State κ :=
  let cur := s.procs par
  if cur.queueType = 0 then
    (s.update np fun x => { x with fpPriority := cur.fpPriority, queueType := 0 }).fpEnqueue np
  else if cur.queueType = 1 then
    (s.update np fun x => { x with hfsPriority := cur.hfsPriority, queueType := 1 }).hfsEnqueue np
  else s

/-- The locked part of `fork`. It reads the priority through `np->parent`, which is `p`. -/
def forkFinish (s : State κ) (p np : Slot) : State κ :=
  { (s.update np fun x => { x with state := .runnable }).forkEnqueue p np with
    doing := Function.update (Function.update s.doing np .user) p .user
    parked := Function.update s.parked np .newborn }

/-! ## `exit` and `wait` -/

/-- `exit()` up to the `acquire`; `shm_rem` on the mappings is left to stores of the process
before it. -/
def exitPrepare (s : State κ) (p : Slot) : State κ :=
  { s.update p fun x => { x with ofile := fun _ => none, cwd := none } with
    doing := Function.update s.doing p .exiting }

/-- One round of the loop of `exit` that passes children to `init`. -/
def reparentRound (p : Slot) (s : State κ) (q : Slot) : State κ :=
  if (s.procs q).parent = some p then
    let s := s.update q fun x => { x with parent := some s.initproc }
    if (s.procs q).state = .zombie then s.wakeup1 (some (.proc s.initproc)) else s
  else s

/-- The locked part of `exit()`, up to the call of `sched`. -/
def exitLocked (s : State κ) (p : Slot) : State κ :=
  let s := s.wakeup1 ((s.procs p).parent.map Chan.proc)
  let s := (List.finRange nproc).foldl (reparentRound p) s
  { s.update p fun x => { x with state := .zombie } with doing := Function.update s.doing p .user }

def zombieChild (s : State κ) (p : Slot) : Option Slot :=
  Xv6.zombieChild (fun q => (s.procs q).parent) (fun q => (s.procs q).state) p

def haveKids (s : State κ) (p : Slot) : Bool :=
  (List.finRange nproc).any fun q => (s.procs q).parent == some p

/-- `wait` clears the slot of the child it found. -/
def reap (s : State κ) (q : Slot) : State κ :=
  s.update q fun x =>
    { x with
      pid := 0
      parent := none
      name := Function.update x.name 0 0
      killed := false
      state := .unused }

/-! ## Priorities and containers -/

/-- The `pid` that `prio_set` compares with the caller's. Through a null `parent` it reads a
word of the caller's memory. -/
def parentPid (s : State κ) (q : Slot) (word : Int) : Int :=
  match (s.procs q).parent with
  | some a => (s.procs a).pid
  | none => word

def prioSet (s : State κ) (p : Slot) (pid priority word : Int) : State κ :=
  if priority > prioMax ∨ priority < 0 then s
  else
    let s := s.update p fun x => { x with queueType := 0 }
    if (s.procs p).fpPriority > priority then s
    else if (s.procs p).pid = pid then s.update p fun x => { x with fpPriority := priority }
    else
      match s.findPid pid with
      | none => s
      | some q =>
        if s.parentPid q word = (s.procs p).pid then
          s.update q fun x => { x with fpPriority := priority }
        else s

def taken (s : State κ) (id : Int) : Bool :=
  (List.finRange nproc).any fun p => (s.procs p).state != .unused && (s.procs p).nameSpace == id

/-- The loop of `do_ce` from a value of `namespace_id`, for at most the given number of rounds. -/
def ceLoop (s : State κ) : Nat → Int → Option Int
  | 0, _ => none
  | n + 1, id => if s.taken id then ceLoop s n (incr id) else some id

/-- `do_ce()` by `p`; one round more than there are slots is enough. -/
def doCe (s : State κ) (p : Slot) : Option (State κ) :=
  if (s.procs p).inContainer ≠ 0 then some s
  else
    (s.ceLoop (nproc + 1) s.namespaceId).map fun id =>
      { s.update p fun x => { x with inContainer := 1, nameSpace := id } with
        namespaceId := incr id }

end State

/-! ## Stores of a process to its own entry -/

/-- What the calls outside this module, and the stores of `do_maxproc` and `do_setroot`, do to
the entry of the process that makes them. -/
inductive Store
  | sz (n : Nat)
  | ofile (fd : Fin nofile) (f : Option Nat)
  | cwd (ip : Nat)
  | shm (i : Fin shmMaxNum) (x : ShmMapping)
  /-- `exec`: the name, and no mutex recorded. -/
  | exec (name : Fin nameLen → UInt8)
  | mutexLock (muxid : Int)
  | mutexUnlock (muxid : Int)
  /-- A fault in user mode. -/
  | fault
  | maxproc (n : Int)
  | setroot (ip : Nat)

def Store.apply : Store → Proc → Proc
  | .sz n, x => { x with sz := n }
  | .ofile fd f, x => { x with ofile := Function.update x.ofile fd f }
  | .cwd ip, x => { x with cwd := some ip }
  | .shm i m, x => { x with shm := Function.update x.shm i m }
  | .exec name, x => { x with name := State.safestrcpy x.name name, procMutexes := fun _ => -1 }
  | .mutexLock muxid, x => { x with procMutexes := Lib.replaceFirst (-1) muxid x.procMutexes }
  | .mutexUnlock muxid, x => { x with procMutexes := Lib.replaceFirst muxid (-1) x.procMutexes }
  | .fault, x => { x with killed := true }
  | .maxproc n, x => { x with maxproc := n, maxprocset := 1 }
  | .setroot ip, x => { x with newrootInode := some ip, inNewroot := 1 }

/-! ## The machine -/

/-- A step; `c` is the processor that takes it. `wakeup`, `kill` and `cv_signal` do not depend
on who calls them. -/
inductive Label (κ : Type)
  | schedule (c : κ)
  | scan (c : κ)
  | resume (c : κ)
  | forkAlloc (c : κ)
  | forkKstackFail (c : κ)
  | forkInit (c : κ)
  | forkInherit (c : κ)
  | forkCopyFail (c : κ)
  | forkCopy (c : κ)
  | forkFinish (c : κ)
  | exitPrepare (c : κ)
  | exitFinish (c : κ)
  | wait (c : κ)
  | waitScan (c : κ)
  | sleep (c : κ) (chan : Nat)
  | yield (c : κ)
  | wakeup (chan : Nat)
  | kill (pid : Int)
  | prioSet (c : κ) (pid priority word : Int)
  | cvWait (c : κ)
  | cvWaitFull (c : κ)
  | cvSignal (pid : Int)
  | createAndEnter (c : κ)
  | store (c : κ) (w : Store)

variable [DecidableEq κ]

namespace State

/-- Where `scheduler()` goes on after a process has switched back to it. -/
def afterRun : CpuPc → CpuPc
  | .queueRun => .scan 0
  | .scanRun i => .scan (i + 1)
  | pc => pc

/-- `sched()` by `p` on `c`, with `ptable.lock` held. -/
def switchOut (s : State κ) (c : κ) (p : Slot) (w : Parked) : State κ :=
  { s with
    cpus := Function.update s.cpus c ⟨none, afterRun (s.cpus c).pc⟩
    lock := some c
    parked := Function.update s.parked p w }

def dispatch (s : State κ) (c : κ) (p : Slot) (pc : CpuPc) : State κ :=
  { s.update p fun x => { x with state := .running } with
    cpus := Function.update s.cpus c ⟨some p, pc⟩
    lock := some c }

def goto (s : State κ) (c : κ) (pc : CpuPc) (lock : Option κ) : State κ :=
  { s with cpus := Function.update s.cpus c ⟨none, pc⟩, lock := lock }

def onCpu (s : State κ) (c : κ) (f : Slot → Option (State κ)) : Option (State κ) :=
  match (s.cpus c).proc with
  | some p => if s.parked p = .onCpu then f p else none
  | none => none

def call (s : State κ) (c : κ) (f : Slot → Option (State κ)) : Option (State κ) :=
  s.onCpu c fun p => if s.doing p = .user then f p else none

def locked (s : State κ) (f : Option (State κ)) : Option (State κ) :=
  if s.lock = none then f else none

/-- `scheduler()` from its `acquire` to the loop over the table, or to the switch before it. -/
def schedule (s : State κ) (c : κ) : Option (State κ) :=
  if (s.cpus c).pc = .idle then
    s.locked <|
      let (p, queues) := Sched.fpDequeue s.queues
      let s := { s with queues := queues }
      match p with
      | none => some (s.goto c (.scan 0) (some c))
      | some p =>
        if (s.procs p).state = .runnable then some (s.dispatch c p .queueRun)
        else some (s.goto c (.scan 0) (some c))
  else none

/-- A round of the loop over the table, or its end. -/
def scan (s : State κ) (c : κ) : Option (State κ) :=
  match (s.cpus c).pc with
  | .scan i =>
    if s.lock = some c then
      if h : i < nproc then
        if (s.procs ⟨i, h⟩).state = .runnable then some (s.dispatch c ⟨i, h⟩ (.scanRun i))
        else some (s.goto c (.scan (i + 1)) (some c))
      else some (s.goto c .idle none)
    else none
  | _ => none

/-- A process that has just been switched to goes on behind its `swtch`. -/
def resume (s : State κ) (c : κ) : Option (State κ) :=
  match (s.cpus c).proc with
  | none => none
  | some p =>
    if s.lock = some c then
      match s.parked p with
      | .newborn | .yielded | .cvWaiting =>
        some { s with lock := none, parked := Function.update s.parked p .onCpu }
      | .slept =>
        some { s.update p fun x => { x with chan := none } with
          lock := none
          parked := Function.update s.parked p .onCpu }
      | .waiting =>
        some { s.update p fun x => { x with chan := none } with
          parked := Function.update s.parked p .scanning }
      | _ => none
    else none

/-- The loop of `wait` over the table and what follows it. -/
def waitScan (s : State κ) (c : κ) : Option (State κ) :=
  match (s.cpus c).proc with
  | none => none
  | some p =>
    if s.lock = some c ∧ s.parked p = .scanning then
      match s.zombieChild p with
      | some q =>
        some { s.reap q with lock := none, parked := Function.update s.parked p .onCpu }
      | none =>
        if ¬ s.haveKids p ∨ (s.procs p).killed then
          some { s with lock := none, parked := Function.update s.parked p .onCpu }
        else
          some ((s.update p fun x => { x with chan := some (.proc p), state := .sleeping }).switchOut
            c p .waiting)
    else none

/-- `yield()` up to its call of `sched`. The first test is never met: no `hfs_priority` gets
that large. -/
def yield (s : State κ) (p : Slot) : State κ :=
  let s := s.update p fun x => { x with state := .runnable }
  if (s.procs p).queueType = 1 ∧ (s.procs p).hfsPriority > prioMax then
    (s.update p fun x => { x with hfsPriority := x.hfsPriority + 1 }).hfsEnqueue p
  else if (s.procs p).queueType = 0 then s.fpEnqueue p
  else s

def step (s : State κ) : Label κ → Option (State κ)
  | .schedule c => s.schedule c
  | .scan c => s.scan c
  | .resume c => s.resume c
  | .forkAlloc c => s.call c fun p => s.locked (some (s.forkAlloc p))
  | .forkKstackFail c => s.onCpu c fun p =>
    match s.doing p with
    | .allocated np => some (s.forkFail p np)
    | _ => none
  | .forkInit c => s.onCpu c fun p =>
    match s.doing p with
    | .allocated np => some (s.forkInit p np)
    | _ => none
  | .forkInherit c => s.onCpu c fun p =>
    match s.doing p with
    | .initialised np => some (s.forkInherit p np)
    | _ => none
  | .forkCopyFail c => s.onCpu c fun p =>
    match s.doing p with
    | .inherited np => some (s.forkFail p np)
    | _ => none
  | .forkCopy c => s.onCpu c fun p =>
    match s.doing p with
    | .inherited np => some (s.forkCopy p np)
    | _ => none
  | .forkFinish c => s.onCpu c fun p =>
    match s.doing p with
    | .copied np => s.locked (some (s.forkFinish p np))
    | _ => none
  -- `init` does not exit: the kernel panics
  | .exitPrepare c => s.call c fun p => if p = s.initproc then none else some (s.exitPrepare p)
  | .exitFinish c => s.onCpu c fun p =>
    if s.doing p = .exiting then s.locked (some ((s.exitLocked p).switchOut c p .exited)) else none
  | .wait c => s.call c fun p =>
    s.locked (some { s with lock := some c, parked := Function.update s.parked p .scanning })
  | .waitScan c => s.waitScan c
  | .sleep c chan => s.call c fun p =>
    s.locked (some ((s.update p fun x =>
      { x with chan := some (.other chan), state := .sleeping }).switchOut c p .slept))
  | .yield c => s.onCpu c fun p => s.locked (some ((s.yield p).switchOut c p .yielded))
  | .wakeup chan => s.locked (some (s.wakeup1 (some (.other chan))))
  | .kill pid => s.locked (some (s.kill pid))
  | .prioSet c pid priority word => s.call c fun p =>
    s.locked (some (s.prioSet p pid priority word))
  | .cvWait c => s.call c fun p =>
    s.locked (some ((s.update p fun x => { x with state := .sleeping }).switchOut c p .cvWaiting))
  -- the wait queue is full: `cv_wait` returns with the lock
  | .cvWaitFull c => s.call c fun p =>
    s.locked (some { s with lock := some c, parked := Function.update s.parked p .stuck })
  | .cvSignal pid => s.locked (some (s.cvSignal pid))
  | .createAndEnter c => s.call c fun p => s.locked (s.doCe p)
  | .store c w => s.call c fun p => some (s.update p w.apply)

end State

abbrev Step (s : State κ) (a : Label κ) (t : State κ) : Prop := s.step a = some t

/-! ## After boot -/

def blank : Proc where
  sz := 0
  state := .unused
  pid := 0
  parent := none
  chan := none
  killed := false
  ofile := fun _ => none
  cwd := none
  name := fun _ => 0
  maxproc := 0
  maxprocset := 0
  newrootInode := none
  inNewroot := 0
  inContainer := 0
  nameSpace := 0
  procMutexes := fun _ => 0
  shm := fun _ => ⟨[], 0⟩
  fpPriority := 0
  hfsPriority := 0
  queueType := 0

/-- The process that `userinit` makes; `cwd` is the root directory. `hfs_enqueue` is called
before the process is `RUNNABLE` and does nothing. -/
def initcode (root : Nat) : Proc :=
  { blank with
    sz := pgSize
    state := .runnable
    pid := 1
    cwd := some root
    name := fun i => [105, 110, 105, 116, 99, 111, 100, 101].getD i.val 0
    queueType := 1 }

/-- The table after `userinit`, with every processor about to enter `scheduler()`. -/
def booted (κ : Type) (root : Nat) (slot : Int → Int → Slot) : State κ where
  procs := Function.update (fun _ => blank) 0 (initcode root)
  nextpid := 2
  namespaceId := 1
  initproc := 0
  queues := .empty slot
  lock := none
  cpus := fun _ => ⟨none, .idle⟩
  doing := fun _ => .user
  parked := Function.update (fun _ => .exited) 0 .newborn

end Xv6.Ptable
