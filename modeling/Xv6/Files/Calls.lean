import Xv6.Lib.Except
import Xv6.Lib.Transition
import Xv6.Files.Names
import Xv6.ProcTable

/-! # Open files, pipes and the calls on them

`file.c`, the two ends of a pipe of `pipe.c`, the calls of `sysfile.c`, and of `proc.c` and
`exec.c` what the calls there do with open files and inodes. Whether `fork` and `exec` get the
memory they ask for is part of the call. The bytes in a pipe, and the other fields of a process,
are not kept.
-/

namespace Xv6.Files

open Lib
open Fs (tDir tFile slash)

inductive FdType
  | none | pipe | inode
  deriving DecidableEq

/-- An index into `ftable.file`: a `struct file *`. -/
abbrev FileSlot := Fin nFile

/-- An index into `ptable.proc`: a `struct proc *`. -/
abbrev ProcSlot := Fin nproc

/-- `struct file`; `pipe` is the page that holds the pipe. -/
structure File where
  type : FdType
  ref : Int
  readable : Bool
  writable : Bool
  pipe : Nat
  ip : Fs.Slot
  off : Nat

structure Pipe where
  readopen : Bool
  writeopen : Bool

structure Proc where
  state : ProcState
  pid : Int
  parent : Option ProcSlot
  killed : Bool
  ofile : Fin nOFile → Option FileSlot
  cwd : Option Fs.Slot
  inNewroot : Int
  newrootInode : Option Fs.Slot

/-- `kmem` lists the free pages; `others` are the pages that other parts of the kernel hold. -/
structure Kernel where
  store : Store
  ftable : FileSlot → File
  pipes : Nat → Pipe
  kmem : List Nat
  others : List Nat
  procs : ProcSlot → Proc
  nextpid : Int
  initproc : ProcSlot

namespace Kernel

def setFile (k : Kernel) (f : FileSlot) (g : File → File) : Kernel :=
  { k with ftable := Function.update k.ftable f (g (k.ftable f)) }

def setPipe (k : Kernel) (page : Nat) (g : Pipe → Pipe) : Kernel :=
  { k with pipes := Function.update k.pipes page (g (k.pipes page)) }

def setProc (k : Kernel) (a : ProcSlot) (g : Proc → Proc) : Kernel :=
  { k with procs := Function.update k.procs a (g (k.procs a)) }

def setOfile (k : Kernel) (a : ProcSlot) (fd : Fin nOFile) (f : Option FileSlot) : Kernel :=
  k.setProc a fun p => { p with ofile := Function.update p.ofile fd f }

end Kernel

def deref {σ α : Type} (x : Option α) : Code σ α :=
  match x with
  | some a => pure a
  | none => throw "null pointer"

def current (a : ProcSlot) : Code Kernel Fs.Proc := do
  let p := (← get).procs a
  let cwd ← deref p.cwd
  return { cwd := cwd, inNewroot := p.inNewroot, newrootInode := p.newrootInode }

/-- Code over the disk and the inode cache, in the kernel. -/
def onStore {α : Type} (x : Code Store α) : Code Kernel α :=
  on Kernel.store (fun k s => { k with store := s }) x

/-! ## `kalloc.c` -/

def kalloc : Code Kernel (Option Nat) := do
  match (← get).kmem with
  | [] => return none
  | page :: rest =>
    modify fun k => { k with kmem := rest }
    return some page

def kfree (page : Nat) : Code Kernel Unit := modify fun k => { k with kmem := page :: k.kmem }

/-! ## `file.c` and `pipe.c` -/

def filealloc : Code Kernel (Option FileSlot) := do
  let k ← get
  match (List.finRange nFile).find? fun f => (k.ftable f).ref == 0 with
  | none => return none
  | some f =>
    modify (·.setFile f fun x => { x with ref := 1 })
    return some f

def filedup (f : FileSlot) : Code Kernel Unit := do
  if ((← get).ftable f).ref < 1 then throw "filedup"
  else modify (·.setFile f fun x => { x with ref := x.ref + 1 })

def pipeclose (page : Nat) (writable : Bool) : Code Kernel Unit := do
  (if writable then modify (·.setPipe page fun p => { p with writeopen := false })
  else modify (·.setPipe page fun p => { p with readopen := false }))
  let p := (← get).pipes page
  if p.readopen = false ∧ p.writeopen = false then kfree page else return

def fileclose (f : FileSlot) : Code Kernel Unit := do
  let ff := (← get).ftable f
  if ff.ref < 1 then throw "fileclose"
  else if ff.ref - 1 > 0 then modify (·.setFile f fun x => { x with ref := x.ref - 1 })
  else
    modify (·.setFile f fun x => { x with ref := 0, type := .none })
    match ff.type with
    | .pipe => pipeclose ff.pipe ff.writable
    | .inode => onStore (iput ff.ip)
    | .none => return

/-- The fields that `pipealloc` sets in the file of one end of the pipe. -/
def File.pipeEnd (page : Nat) (writable : Bool) (x : File) : File :=
  { x with type := .pipe, readable := !writable, writable := writable, pipe := page }

def pipealloc : Code Kernel (Option (FileSlot × FileSlot)) := do
  match ← filealloc with
  | none => return none
  | some f0 =>
    match ← filealloc with
    | none =>
      fileclose f0
      return none
    | some f1 =>
      match ← kalloc with
      | none =>
        fileclose f0
        fileclose f1
        return none
      | some page =>
        modify (·.setPipe page fun _ => { readopen := true, writeopen := true })
        modify (·.setFile f0 (File.pipeEnd page false))
        modify (·.setFile f1 (File.pipeEnd page true))
        return some (f0, f1)

/-- The loop of `filewrite` for an inode, from the byte `i` of `src` on. -/
def filewriteLoop (sb : Superblock) (f : FileSlot) : Nat → List UInt8 → Code Kernel Bool
  | 0, _ => return true
  | fuel + 1, src => do
    if src = [] then return true
    else
      let ff := (← get).ftable f
      let n1 := min src.length ((logSize - 1 - 1 - 2) / 2 * 512)
      onStore (ilock ff.ip)
      let r ← onStore (writei sb ff.ip (src.take n1) ff.off)
      modify (·.setFile f fun x => { x with off := (x.off + r.getD 0) % uintMod })
      onStore (iunlock ff.ip)
      match r with
      | none => return false
      | some r => if r ≠ n1 then throw "short filewrite" else filewriteLoop sb f fuel (src.drop n1)

/-- `filewrite(f, addr, n)`. A write to a pipe leaves what is kept here as it is, and how much
of it the pipe takes is left open. -/
def filewrite (sb : Superblock) (f : FileSlot) (src : List UInt8) : Code Kernel Int := do
  let ff := (← get).ftable f
  if ff.writable = false then return -1
  else
    match ff.type with
    | .pipe => return src.length
    | .inode => if ← filewriteLoop sb f src.length src then return src.length else return -1
    | .none => throw "filewrite"

/-! ## `sysfile.c` -/

/-- `argfd`: the descriptor and the file it stands for. -/
def argfd (a : ProcSlot) (fd : Int) : Code Kernel (Option (Fin nOFile × FileSlot)) := do
  let ofile := ((← get).procs a).ofile
  if fd < 0 then return none
  else if h : fd.toNat < nOFile then return (ofile ⟨fd.toNat, h⟩).map fun f => (⟨fd.toNat, h⟩, f)
  else return none

def fdalloc (a : ProcSlot) (f : FileSlot) : Code Kernel (Option (Fin nOFile)) := do
  let ofile := ((← get).procs a).ofile
  match (List.finRange nOFile).find? fun fd => (ofile fd).isNone with
  | none => return none
  | some fd =>
    modify (·.setOfile a fd (some f))
    return some fd

def sysDup (a : ProcSlot) (fd : Int) : Code Kernel Int := do
  match ← argfd a fd with
  | none => return -1
  | some (_, f) =>
    match ← fdalloc a f with
    | none => return -1
    | some fd =>
      filedup f
      return fd

def sysClose (a : ProcSlot) (fd : Int) : Code Kernel Int := do
  match ← argfd a fd with
  | none => return -1
  | some (fd, f) =>
    modify (·.setOfile a fd none)
    fileclose f
    return 0

def sysWrite (sb : Superblock) (a : ProcSlot) (fd : Int) (src : List UInt8) : Code Kernel Int := do
  match ← argfd a fd with
  | none => return -1
  | some (_, f) => filewrite sb f src

abbrev oWronly : Nat := 0x001
abbrev oRdwr : Nat := 0x002
abbrev oCreate : Nat := 0x200

/-- The fields that `sys_open` sets in the file. -/
def File.opened (ip : Fs.Slot) (omode : Nat) (x : File) : File :=
  { x with
    type := .inode
    ip := ip
    off := 0
    readable := omode &&& oWronly == 0
    writable := omode &&& oWronly != 0 || omode &&& oRdwr != 0 }

def openInode (a : ProcSlot) (ip : Fs.Slot) (omode : Nat) : Code Kernel Int := do
  match ← filealloc with
  | none =>
    onStore (iunlockput ip)
    return -1
  | some f =>
    match ← fdalloc a f with
    | none =>
      fileclose f
      onStore (iunlockput ip)
      return -1
    | some fd =>
      onStore (iunlock ip)
      modify (·.setFile f (File.opened ip omode))
      return fd

def sysOpen (sb : Superblock) (a : ProcSlot) (path : CString) (omode : Nat) (buf : CString) :
    Code Kernel Int := do
  let p ← current a
  if omode &&& oCreate ≠ 0 then
    match ← onStore (create sb p path tFile 0 0 buf) with
    | none => return -1
    | some ip => openInode a ip omode
  else
    match ← onStore (namei sb p path buf) with
    | none => return -1
    | some ip =>
      onStore (ilock ip)
      if ((← get).store.icache ip).copy.type = tDir ∧ omode ≠ 0 then
        onStore (iunlockput ip)
        return -1
      else openInode a ip omode

def sysChdir (sb : Superblock) (a : ProcSlot) (path buf : CString) : Code Kernel Int := do
  let p ← current a
  match ← onStore (namei sb p path buf) with
  | none => return -1
  | some ip =>
    onStore (ilock ip)
    if ((← get).store.icache ip).copy.type ≠ tDir then
      onStore (iunlockput ip)
      return -1
    else
      onStore (iunlock ip)
      onStore (iput p.cwd)
      modify (·.setProc a fun x => { x with cwd := some ip })
      return 0

/-- `sys_pipe()`; the two descriptors are stored with the caller. -/
def sysPipe (a : ProcSlot) : Code Kernel Int := do
  match ← pipealloc with
  | none => return -1
  | some (rf, wf) =>
    match ← fdalloc a rf with
    | none =>
      fileclose rf
      fileclose wf
      return -1
    | some fd0 =>
      match ← fdalloc a wf with
      | none =>
        modify (·.setOfile a fd0 none)
        fileclose rf
        fileclose wf
        return -1
      | some _ => return 0

/-! ## `proc.c` -/

/-- `allocproc()`; `stack` tells whether there is a page for the kernel stack. -/
def allocproc (stack : Bool) : Code Kernel (Option ProcSlot) := do
  let k ← get
  match freeSlot fun q => (k.procs q).state with
  | none => return none
  | some p =>
    modify (·.setProc p fun x => { x with state := .embryo, pid := k.nextpid })
    modify fun k => { k with nextpid := k.nextpid + 1 }
    if stack then
      modify (·.setProc p fun x => { x with newrootInode := none, inNewroot := 0 })
      return some p
    else
      modify (·.setProc p fun x => { x with state := .unused })
      return none

/-- `fork` hands the root of the container on. -/
def forkRoot (a np : ProcSlot) : Code Kernel Unit := do
  let cur := (← get).procs a
  modify (·.setProc np fun x => { x with inNewroot := cur.inNewroot })
  if cur.inNewroot ≠ 0 then
    let ip ← deref cur.newrootInode
    onStore (idup ip)
    modify (·.setProc np fun x => { x with newrootInode := some ip })
  else modify (·.setProc np fun x => { x with newrootInode := none })

/-- `fork` hands the open files and the working directory on. -/
def forkFiles (a np : ProcSlot) : Code Kernel Unit := do
  (List.finRange nOFile).forM fun i => do
    match ((← get).procs a).ofile i with
    | none => return
    | some f =>
      filedup f
      modify (·.setOfile np i (some f))
  let cwd ← deref ((← get).procs a).cwd
  onStore (idup cwd)
  modify (·.setProc np fun x => { x with cwd := some cwd })

/-- The memory that `fork` gets: a page for the stack, and what `copyuvm` asks for. -/
structure ForkMem where
  stack : Bool
  copy : Bool

def fork (a : ProcSlot) (mem : ForkMem) : Code Kernel Int := do
  match ← allocproc mem.stack with
  | none => return -1
  | some np =>
    forkRoot a np
    if mem.copy then
      modify (·.setProc np fun x => { x with parent := some a })
      forkFiles a np
      modify (·.setProc np fun x => { x with state := .runnable })
      return ((← get).procs np).pid
    else
      modify (·.setProc np fun x => { x with state := .unused })
      return -1

def Kernel.reparent (k : Kernel) (a : ProcSlot) : Kernel :=
  { k with procs := fun q =>
      if (k.procs q).parent = some a then { k.procs q with parent := some k.initproc } else k.procs q }

def exit (a : ProcSlot) : Code Kernel Unit := do
  let k ← get
  if a = k.initproc then throw "init exiting"
  else
    (List.finRange nOFile).forM fun fd => do
      match ((← get).procs a).ofile fd with
      | none => return
      | some f =>
        fileclose f
        modify (·.setOfile a fd none)
    let cwd ← deref ((← get).procs a).cwd
    onStore (iput cwd)
    modify (·.setProc a fun x => { x with cwd := none })
    modify (·.reparent a)
    modify (·.setProc a fun x => { x with state := .zombie })

/-- `wait()`, with what it returns if it returns now. -/
def wait (a : ProcSlot) : Code Kernel (Option Int) := do
  let k ← get
  match zombieChild (fun q => (k.procs q).parent) (fun q => (k.procs q).state) a with
  | some q =>
    modify (·.setProc q fun x =>
      { x with pid := 0, parent := none, killed := false, state := .unused })
    return some (k.procs q).pid
  | none =>
    if (k.procs a).killed ∨ ∀ q, (k.procs q).parent ≠ some a then return some (-1) else return none

def doSetroot (sb : Superblock) (a : ProcSlot) (path : CString) (pathLen : Int) (buf : CString) :
    Code Kernel Int := do
  let p := (← get).procs a
  if p.inNewroot ≠ 0 then return -1
  else if path.headD 0 ≠ slash ∨ pathLen ≥ maxPath then return -1
  else
    match ← onStore (namei sb (← current a) path buf) with
    | none => return -1
    | some ip =>
      if ← onStore (isInodeDirectory ip) then
        modify (·.setProc a fun x => { x with newrootInode := some ip, inNewroot := 1 })
        return 0
      else return -1

/-! ## `exec.c` -/

/-- What `exec` gets when it asks for memory: a page directory, room for each segment, and a
stack that takes the arguments. -/
structure ExecMem where
  pgdir : Bool
  segment : Nat → Bool
  stack : Bool

/-- The loop of `loaduvm`, over the `sz` bytes that are left. -/
def loadLoop (sb : Superblock) (ip : Fs.Slot) (input : List UInt8) : Nat → Nat → Nat → Code Store Bool
  | 0, _, _ => return true
  | fuel + 1, offset, sz => do
    if sz = 0 then return true
    else
      match ← readi sb ip offset (min sz pgSize) input with
      | some bytes =>
        if bytes.length ≠ min sz pgSize then return false
        else loadLoop sb ip input fuel ((offset + pgSize) % uintMod) (sz - pgSize)
      | none => return false

/-- The loop of `exec` over the program headers, from the header `i` at `off` on. -/
def execLoop (sb : Superblock) (ip : Fs.Slot) (mem : ExecMem) (input : List UInt8) :
    Nat → Nat → Nat → Code Store Bool
  | 0, _, _ => return true
  | fuel + 1, i, off => do
    match ← readi sb ip off 32 input with
    | none => return false
    | some ph =>
      let filesz := uintAt ph 16
      let vaddr := uintAt ph 8
      let memsz := uintAt ph 20
      if ph.length ≠ 32 then return false
      else if uintAt ph 0 ≠ 1 then execLoop sb ip mem input fuel (i + 1) ((off + 32) % uintMod)
      else if memsz < filesz ∨ (vaddr + memsz) % uintMod < vaddr ∨ mem.segment i = false ∨
          vaddr % pgSize ≠ 0 then return false
      else if ← loadLoop sb ip input (filesz / pgSize + 1) (uintAt ph 4) filesz then
        execLoop sb ip mem input fuel (i + 1) ((off + 32) % uintMod)
      else return false

/-- `exec` up to the point where it lets go of the inode. -/
def execLoad (sb : Superblock) (ip : Fs.Slot) (mem : ExecMem) (input : List UInt8) :
    Code Store Bool := do
  match ← readi sb ip 0 52 input with
  | none => return false
  | some elf =>
    if elf.length ≠ 52 ∨ uintAt elf 0 ≠ 0x464C457F ∨ mem.pgdir = false then return false
    else execLoop sb ip mem input (ushortAt elf 44) 0 (uintAt elf 28)

def exec (sb : Superblock) (a : ProcSlot) (path : CString) (mem : ExecMem) (input buf : CString) :
    Code Kernel Int := do
  match ← onStore (namei sb (← current a) path buf) with
  | none => return -1
  | some ip =>
    onStore (ilock ip)
    let loaded ← onStore (execLoad sb ip mem input)
    onStore (iunlockput ip)
    if loaded ∧ mem.stack then return 0 else return -1

/-! ## Runs -/

inductive Call
  | open (path : CString) (omode : Nat)
  | dup (fd : Int)
  | pipe
  | close (fd : Int)
  | write (fd : Int) (src : List UInt8)
  | chdir (path : CString)
  | link (old new : CString)
  | unlink (path : CString)
  | mkdir (path : CString)
  | mknod (path : CString) (major minor : Int)
  | fork (mem : ForkMem)
  | exit
  | wait
  | exec (path : CString) (mem : ExecMem) (input : List UInt8)
  | setroot (path : CString) (pathLen : Int)

/-- A call by `a`, with what it returns if it returns now. `buf` is what the stack holds where
`namei` and its callers have the buffer `name`. -/
def call (sb : Superblock) (a : ProcSlot) (buf : CString) : Call → Code Kernel (Option Int)
  | .open path omode => some <$> sysOpen sb a path omode buf
  | .dup fd => some <$> sysDup a fd
  | .pipe => some <$> sysPipe a
  | .close fd => some <$> sysClose a fd
  | .write fd src => some <$> sysWrite sb a fd src
  | .chdir path => some <$> sysChdir sb a path buf
  | .link old new => do return some (← onStore (sysLink sb (← current a) old new buf))
  | .unlink path => do return some (← onStore (sysUnlink sb (← current a) path buf))
  | .mkdir path => do return some (← onStore (sysMkdir sb (← current a) path buf))
  | .mknod path major minor => do
    return some (← onStore (sysMknod sb (← current a) path major minor buf))
  | .fork mem => some <$> fork a mem
  | .exit => do
    exit a
    return none
  | .wait => wait a
  | .exec path mem input => some <$> exec sb a path mem input buf
  | .setroot path pathLen => some <$> doSetroot sb a path pathLen buf

def Proc.Live (p : Proc) : Prop := p.state ≠ .unused ∧ p.state ≠ .zombie

instance Proc.decidableLive (p : Proc) : Decidable p.Live :=
  inferInstanceAs (Decidable (_ ∧ _))

/-- A whole call, or another part of the kernel that takes a page or gives one back. -/
inductive Event
  | call (a : ProcSlot) (c : Call) (buf : CString)
  | kalloc
  | kfree (page : Nat)

/-- Other parts of the kernel take the first free page. -/
def takePage (k : Kernel) : Kernel :=
  match k.kmem with
  | [] => k
  | page :: rest => { k with kmem := rest, others := page :: k.others }

def givePage (k : Kernel) (page : Nat) : Kernel :=
  if page ∈ k.others then { k with kmem := page :: k.kmem, others := k.others.erase page } else k

inductive Step (sb : Superblock) : Kernel → Event → Kernel → Prop
  | call {k k' : Kernel} {a : ProcSlot} {c : Call} {buf : CString} {r : Option Int} :
      (k.procs a).Live → call sb a buf c k = .ok (r, k') → Step sb k (.call a c buf) k'
  | kalloc (k : Kernel) : Step sb k .kalloc (takePage k)
  | kfree (k : Kernel) (page : Nat) : Step sb k (.kfree page) (givePage k page)

/-- The state after an event, if there is one. -/
def next (sb : Superblock) (k : Kernel) : Event → Option Kernel
  | .call a c buf =>
    if (k.procs a).Live then (call sb a buf c k).toOption.map Prod.snd else none
  | .kalloc => some (takePage k)
  | .kfree page => some (givePage k page)

theorem step_of_next {sb : Superblock} {k k' : Kernel} {e : Event} (h : next sb k e = some k') :
    Step sb k e k' := by
  cases e with
  | call a c buf =>
    dsimp only [next] at h
    split at h
    · rename_i hlive
      obtain ⟨⟨r, t⟩, hcall, rfl⟩ := Option.map_eq_some_iff.mp h
      exact .call hlive (eq_ok_of_toOption hcall)
    · cases h
  | kalloc =>
    cases h
    exact .kalloc k
  | kfree page =>
    cases h
    exact .kfree k page

end Xv6.Files
