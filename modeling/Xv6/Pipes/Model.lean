import Xv6.Params
import Xv6.Lib.Spin

/-! # `pipe.c`

`pipewrite`, `piperead` and `pipeclose` on one pipe, and `kill`, cut at every `acquire`,
every `release` and every access to memory that another process may touch at the same time.
`sleep` and `wakeup` of `proc.c` are inlined where they are called. A sleeping process gives
`ptable.lock` to the scheduler with the processor and gets both back once it is `RUNNABLE`;
which `RUNNABLE` process runs next is left open. What `kfree` does to the page is left out:
it is the last use of the pipe.
-/

namespace Xv6.Pipes

open Lib.Spin

/-- `&p->nread` and `&p->nwrite`, as sleep channels. -/
inductive Chan
  | nread
  | nwrite
  deriving DecidableEq

structure Pipe where
  data : Nat → UInt8
  nread : Nat
  nwrite : Nat
  readopen : Nat
  writeopen : Nat

def Pipe.isEmpty (x : Pipe) : Bool :=
  x.nread == x.nwrite

/-- `p->nwrite == p->nread + PIPESIZE`, in `uint`. -/
def Pipe.isFull (x : Pipe) : Bool :=
  x.nwrite == (x.nread + pipeSize) % uintMod

def Pipe.put (x : Pipe) (b : UInt8) : Pipe :=
  { x with
    data := Function.update x.data (x.nwrite % pipeSize) b
    nwrite := (x.nwrite + 1) % uintMod }

def Pipe.front (x : Pipe) : UInt8 :=
  x.data (x.nread % pipeSize)

def Pipe.take (x : Pipe) : Pipe :=
  { x with nread := (x.nread + 1) % uintMod }

def Pipe.close (x : Pipe) (writable : Bool) : Pipe :=
  if writable then { x with writeopen := 0 } else { x with readopen := 0 }

/-- The fields of `struct proc` that the calls use; `chan` is set while asleep on the pipe. -/
structure Proc where
  state : ProcState
  chan : Option Chan
  killed : Bool

structure Mem (ι : Type) where
  pipe : Pipe
  proc : ι → Proc

/-- The processes in the order of `ptable.proc`, with their pids. -/
structure Procs (ι : Type) where
  slots : List ι
  pid : ι → Int

inductive Lock
  | pipe
  | ptable
  deriving DecidableEq

/-- A loop of `pipewrite` or `piperead` that sleeps, with its variables: the bytes at `addr`
and the index, or `n`. -/
inductive Loop
  | write (buf : List UInt8) (i : Nat)
  | read (n : Nat)
  deriving DecidableEq

def Loop.chan : Loop → Chan
  | .write _ _ => .nwrite
  | .read _ => .nread

def closeChan (writable : Bool) : Chan :=
  if writable then .nread else .nwrite

/-- Program points; each is named after what happens there. -/
inductive Pc
  | writeAcquire (buf : List UInt8) | writeLoop (buf : List UInt8) (i : Nat)
  | writeFull (buf : List UInt8) (i : Nat) | writeFail | writeStore (buf : List UInt8) (i : Nat)
  | fullWakeAcquire (buf : List UInt8) (i : Nat) | fullWake (buf : List UInt8) (i : Nat)
  | fullWakeRelease (buf : List UInt8) (i : Nat)
  | writeWake (buf : List UInt8) | writeWakeRelease (buf : List UInt8) | writeRelease (buf : List UInt8)
  | readAcquire (n : Nat) | readTest (n : Nat) | readKilled (n : Nat) | readFail
  | readLoop (n i : Nat) | readCopy (n i : Nat) | readWakeAcquire (i : Nat) | readWake (i : Nat)
  | readWakeRelease (i : Nat) | readRelease (i : Nat)
  | closeAcquire (writable : Bool) | closeFlag (writable : Bool) | closeWakeAcquire (writable : Bool)
  | closeWake (writable : Bool) | closeWakeRelease | closeRelease
  | sleepAcquire (k : Loop) | sleepRelease (k : Loop) | sleepMark (k : Loop) | sleepSched (k : Loop)
  | sleepWait (k : Loop) | sleepWake (k : Loop) | sleepDone (k : Loop) | sleepReacquire (k : Loop)
  | killAcquire (pid : Int) | killFind (pid : Int) | killRelease (r : Int)
  | done (r : Int)
  deriving DecidableEq

def Loop.next : Loop → Pc
  | .write buf i => .writeLoop buf i
  | .read n => .readTest n

inductive Call
  | write (buf : List UInt8)
  | read (n : Nat)
  | close (writable : Bool)
  | kill (pid : Int)
  deriving DecidableEq

def entry : Call → Pc
  | .write buf => .writeAcquire buf
  | .read n => .readAcquire n
  | .close writable => .closeAcquire writable
  | .kill pid => .killAcquire pid

variable {ι : Type} [DecidableEq ι]

def Mem.update (p : ι) (f : Proc → Proc) (s : Mem ι) : Mem ι :=
  { s with proc := Function.update s.proc p (f (s.proc p)) }

def Mem.wakeup1 (P : Procs ι) (chan : Chan) (s : Mem ι) : Mem ι :=
  { s with proc := fun q =>
      if q ∈ P.slots ∧ (s.proc q).state = .sleeping ∧ (s.proc q).chan = some chan then
        { s.proc q with state := .runnable }
      else s.proc q }

/-- The loop of `kill`; the process found is marked. -/
def Mem.kill (P : Procs ι) (pid : Int) (s : Mem ι) : Mem ι :=
  match P.slots.find? fun q => P.pid q == pid with
  | some q => s.update q fun x =>
    { x with killed := true, state := if x.state = .sleeping then .runnable else x.state }
  | none => s

def code (P : Procs ι) (p : ι) : Pc → Instr Lock Pc (Mem ι)
  -- pipewrite
  | .writeAcquire buf => .acquire .pipe (.writeLoop buf 0)
  | .writeLoop buf i =>
    if i < buf.length then
      .access id fun s => if s.pipe.isFull then .writeFull buf i else .writeStore buf i
    else .acquire .ptable (.writeWake buf)
  | .writeFull buf i => .access id fun s =>
    if s.pipe.readopen = 0 ∨ (s.proc p).killed then .writeFail else .fullWakeAcquire buf i
  | .writeFail => .release .pipe (.done (-1))
  | .fullWakeAcquire buf i => .acquire .ptable (.fullWake buf i)
  | .fullWake buf i => .access (Mem.wakeup1 P .nread) fun _ => .fullWakeRelease buf i
  | .fullWakeRelease buf i => .release .ptable (.sleepAcquire (.write buf i))
  | .writeStore buf i =>
    .access (fun s => { s with pipe := s.pipe.put (buf.getD i 0) }) fun _ => .writeLoop buf (i + 1)
  | .writeWake buf => .access (Mem.wakeup1 P .nread) fun _ => .writeWakeRelease buf
  | .writeWakeRelease buf => .release .ptable (.writeRelease buf)
  | .writeRelease buf => .release .pipe (.done buf.length)
  -- piperead
  | .readAcquire n => .acquire .pipe (.readTest n)
  | .readTest n => .access id fun s =>
    if s.pipe.isEmpty ∧ s.pipe.writeopen ≠ 0 then .readKilled n else .readLoop n 0
  | .readKilled n => .access id fun s =>
    if (s.proc p).killed then .readFail else .sleepAcquire (.read n)
  | .readFail => .release .pipe (.done (-1))
  | .readLoop n i =>
    if i < n then
      .access id fun s => if s.pipe.isEmpty then .readWakeAcquire i else .readCopy n i
    else .acquire .ptable (.readWake i)
  | .readCopy n i =>
    .access (fun s => { s with pipe := s.pipe.take }) fun _ => .readLoop n (i + 1)
  | .readWakeAcquire i => .acquire .ptable (.readWake i)
  | .readWake i => .access (Mem.wakeup1 P .nwrite) fun _ => .readWakeRelease i
  | .readWakeRelease i => .release .ptable (.readRelease i)
  | .readRelease i => .release .pipe (.done i)
  -- pipeclose; its last test only decides whether the page is freed
  | .closeAcquire writable => .acquire .pipe (.closeFlag writable)
  | .closeFlag writable =>
    .access (fun s => { s with pipe := s.pipe.close writable }) fun _ => .closeWakeAcquire writable
  | .closeWakeAcquire writable => .acquire .ptable (.closeWake writable)
  | .closeWake writable =>
    .access (Mem.wakeup1 P (closeChan writable)) fun _ => .closeWakeRelease
  | .closeWakeRelease => .release .ptable .closeRelease
  | .closeRelease => .release .pipe (.done 0)
  -- sleep(chan, &p->lock)
  | .sleepAcquire k => .acquire .ptable (.sleepRelease k)
  | .sleepRelease k => .release .pipe (.sleepMark k)
  | .sleepMark k =>
    .access (fun s => s.update p fun x => { x with chan := some k.chan, state := .sleeping })
      fun _ => .sleepSched k
  | .sleepSched k => .sched .ptable (.sleepWait k)
  | .sleepWait k => .resume .ptable (fun s => (s.proc p).state == .runnable)
      (fun s => s.update p fun x => { x with state := .running }) (.sleepWake k)
  | .sleepWake k => .access (fun s => s.update p fun x => { x with chan := none }) fun _ => .sleepDone k
  | .sleepDone k => .release .ptable (.sleepReacquire k)
  | .sleepReacquire k => .acquire .pipe k.next
  -- kill
  | .killAcquire pid => .acquire .ptable (.killFind pid)
  | .killFind pid => .access (Mem.kill P pid) fun _ =>
    .killRelease (if (P.slots.find? fun q => P.pid q == pid).isSome then 0 else -1)
  | .killRelease r => .release .ptable (.done r)
  | .done r => .ret r

abbrev State (ι : Type) := Lib.Spin.State ι Lock Pc (Mem ι)

abbrev Label (ι : Type) := Lib.Spin.Label ι Call

def program (P : Procs ι) : Program ι Call Lock Pc (Mem ι) := ⟨entry, code P⟩

theorem target_writeLoop {P : Procs ι} {p : ι} {buf : List UInt8} {i : Nat} {c : Pc} {s : Mem ι}
    (h : (code P p (.writeLoop buf i)).target s = some c) :
    (i < buf.length ∧ s.pipe.isFull = true ∧ c = .writeFull buf i) ∨
      (i < buf.length ∧ s.pipe.isFull = false ∧ c = .writeStore buf i) ∨
      (¬ i < buf.length ∧ c = .writeWake buf) := by
  simp only [code] at h
  split at h
  · rename_i hlt
    simp only [Instr.target, Option.some.injEq] at h
    split at h
    · rename_i hfull
      exact .inl ⟨hlt, hfull, h.symm⟩
    · rename_i hfull
      exact .inr (.inl ⟨hlt, Bool.eq_false_iff.mpr hfull, h.symm⟩)
  · rename_i hlt
    cases h
    exact .inr (.inr ⟨hlt, rfl⟩)

theorem target_readLoop {P : Procs ι} {p : ι} {n i : Nat} {c : Pc} {s : Mem ι}
    (h : (code P p (.readLoop n i)).target s = some c) :
    (s.pipe.isEmpty = true ∧ c = .readWakeAcquire i) ∨
      (s.pipe.isEmpty = false ∧ c = .readCopy n i) ∨ c = .readWake i := by
  simp only [code] at h
  split at h
  · simp only [Instr.target, Option.some.injEq] at h
    split at h
    · rename_i hempty
      exact .inl ⟨hempty, h.symm⟩
    · rename_i hempty
      exact .inr (.inl ⟨Bool.eq_false_iff.mpr hempty, h.symm⟩)
  · cases h
    exact .inr (.inr rfl)

/-- What leads to the points that a call reaches after a test of the pipe. -/
def ComesFrom (x : Mem ι) (c : Pc) : Pc → Prop
  | .writeFull buf i => c = .writeLoop buf i ∧ x.pipe.isFull = true
  | .writeStore buf i => c = .writeLoop buf i ∧ i < buf.length ∧ x.pipe.isFull = false
  | .writeFail => ∃ buf i, c = .writeFull buf i
  | .fullWakeAcquire buf i => c = .writeFull buf i ∧ x.pipe.readopen ≠ 0
  | .fullWake buf i => c = .fullWakeAcquire buf i
  | .fullWakeRelease buf i => c = .fullWake buf i
  | .readKilled n => c = .readTest n ∧ x.pipe.isEmpty = true ∧ x.pipe.writeopen ≠ 0
  | .readCopy n i => c = .readLoop n i ∧ x.pipe.isEmpty = false
  | .sleepAcquire (.write buf i) => c = .fullWakeRelease buf i
  | .sleepAcquire (.read n) => c = .readKilled n
  | .sleepRelease k => c = .sleepAcquire k
  | .sleepMark k => c = .sleepRelease k
  | _ => True

theorem comesFrom {P : Procs ι} {p : ι} {c c' : Pc} {s t : State ι}
    (hx : Executed s p (code P p c) t) (h : t.pc p = some c') : ComesFrom s.mem c c' := by
  obtain ⟨k, htarget, hpc⟩ := hx.target_isSome
  rw [hpc, Function.update_self, Option.some.injEq] at h
  subst h
  cases c with
  | writeLoop buf i =>
    rcases target_writeLoop htarget with ⟨-, hfull, rfl⟩ | ⟨hlt, hfull, rfl⟩ | ⟨-, rfl⟩
    · exact ⟨rfl, hfull⟩
    · exact ⟨rfl, hlt, hfull⟩
    · trivial
  | readLoop n i =>
    rcases target_readLoop htarget with ⟨-, rfl⟩ | ⟨hempty, rfl⟩ | rfl
    · trivial
    · exact ⟨rfl, hempty⟩
    · trivial
  | writeFull buf i =>
    simp only [code, Instr.target, Option.some.injEq] at htarget
    subst htarget
    split
    · exact ⟨buf, i, rfl⟩
    · rename_i hgo
      exact ⟨rfl, fun hopen => hgo (.inl hopen)⟩
  | sleepReacquire k => cases k <;> cases htarget <;> trivial
  | _ =>
    simp only [code, Instr.target, Option.some.injEq, reduceCtorEq] at htarget
    try subst htarget
    try split
    all_goals trivial

/-! ## Locks -/

/-- The locks a call has taken when it is at a program point. -/
def locksAt : Pc → Finset Lock
  | .writeLoop _ _ | .writeFull _ _ | .writeFail | .writeStore _ _ | .fullWakeAcquire _ _
  | .writeRelease _ | .readTest _ | .readKilled _ | .readFail | .readLoop _ _ | .readCopy _ _
  | .readWakeAcquire _ | .readRelease _ | .closeFlag _ | .closeWakeAcquire _ | .closeRelease
  | .sleepAcquire _ => {.pipe}
  | .fullWake _ _ | .fullWakeRelease _ _ | .writeWake _ | .writeWakeRelease _ | .readWake _
  | .readWakeRelease _ | .closeWake _ | .closeWakeRelease | .sleepRelease _ => {.pipe, .ptable}
  | .sleepMark _ | .sleepSched _ | .sleepWake _ | .sleepDone _ | .killFind _ | .killRelease _ =>
    {.ptable}
  | _ => ∅

theorem code_fits (P : Procs ι) (p : ι) (c : Pc) : Fits locksAt c (code P p c) := by
  cases c with
  | writeLoop buf i | readLoop n i =>
    simp only [code]
    split
    · intro s
      dsimp only
      split <;> rfl
    · simp [Fits, locksAt, Finset.ext_iff, or_comm]
  | writeFull buf i | readTest n | readKilled n => intro s; dsimp only; split <;> rfl
  | sleepReacquire k => cases k <;> simp [code, Fits, locksAt, Loop.next]
  | _ => simp [code, Fits, locksAt, Finset.ext_iff]; try grind

theorem program_annotated (P : Procs ι) : Annotates (program P) locksAt := by
  refine .of_fits (fun c => ?_) (code_fits P)
  cases c <;> rfl

/-! ## `pipealloc` -/

/-- The pipe as `pipealloc` leaves it, in a page with any contents; nobody uses it yet. -/
structure Allocated (s : State ι) : Prop where
  nread : s.mem.pipe.nread = 0
  nwrite : s.mem.pipe.nwrite = 0
  readopen : s.mem.pipe.readopen = 1
  writeopen : s.mem.pipe.writeopen = 1
  pc : ∀ p, s.pc p = none
  owner : ∀ l, s.owner l = none
  chan : ∀ p, (s.mem.proc p).chan = none

omit [DecidableEq ι] in
theorem Allocated.owned {s : State ι} (h : Allocated s) : Owned locksAt s := by
  intro p c hc
  rw [h.pc p] at hc
  cases hc

/-! ## Concrete runs -/

instance three_neZero : NeZero 3 := ⟨by decide⟩

def threeProcs : Procs (Fin 3) where
  slots := [0, 1, 2]
  pid := fun p => p.val + 1

/-- A new pipe and three processes that run in user mode. -/
def allocated : State (Fin 3) where
  mem := ⟨⟨fun _ => 0, 0, 0, 1, 1⟩, fun _ => ⟨.running, none, false⟩⟩
  owner := fun _ => none
  ncli := fun _ => 0
  pc := fun _ => none

theorem allocated_ok : Allocated allocated :=
  ⟨rfl, rfl, rfl, rfl, fun _ => rfl, fun _ => rfl, fun _ => rfl⟩

def steps (p : Fin 3) (n : Nat) : List (Label (Fin 3)) := List.replicate n (.step p)

end Xv6.Pipes
