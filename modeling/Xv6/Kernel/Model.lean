import Xv6.Vm.Paging
import Xv6.Sync.Model
import Xv6.Sched.ReadyQueue
import Xv6.Fs.Path
import Xv6.ProcTable

/-! # Processes and shared memory: `proc.c`, `exec.c` and the shared pages of `vm.c`

Each call runs to its end or to its sleep. A `panic`, and a fault of the kernel, is an error
with its message. Open files are left out.
-/

namespace Xv6.Kernel

open Vm

/-- An index into `ptable.proc`: a `struct proc *`. -/
abbrev Slot := Fin nproc

structure ShmBlock where
  name : CString
  pa : Nat
  ref : Int
  mutexIndex : Int

structure SharedMemory where
  num : Int
  mems : Fin shmMaxNum → ShmBlock

structure ShmMapping where
  name : CString
  va : Nat

/-- The registers of `struct trapframe` that the modelled calls set. -/
structure Trapframe where
  eip : Nat
  esp : Nat
  eax : Nat

structure Proc where
  sz : Nat
  pgdir : Option PgDir
  kstack : Option Nat
  state : ProcState
  pid : Int
  parent : Option Slot
  tf : Trapframe
  chan : Option Slot
  killed : Bool
  cwd : Option Fs.Slot
  name : CString
  maxproc : Int
  maxprocset : Int
  newrootInode : Option Fs.Slot
  inNewroot : Int
  inContainer : Int
  nameSpace : Int
  procMutexes : Fin muxMaxNum → Int
  shm : Fin shmMaxNum → ShmMapping
  fpPriority : Int
  hfsPriority : Int
  queueType : Int

structure State where
  procs : Slot → Proc
  nextpid : Int
  initproc : Slot
  queues : Sched.ReadyQueues Slot
  mem : Mem
  shared : SharedMemory
  mutexes : Sync.Mux → Sync.Mutex
  fs : Fs.FsState

def State.update (k : State) (a : Slot) (f : Proc → Proc) : State :=
  { k with procs := Function.update k.procs a (f (k.procs a)) }

def SharedMemory.update (s : SharedMemory) (i : Fin shmMaxNum) (f : ShmBlock → ShmBlock) :
    SharedMemory :=
  { s with mems := Function.update s.mems i (f (s.mems i)) }

/-! ## The mutex table, as `shm_get` and `shm_rem` use it -/

/-- `strncpy(…, t, n)`: the `n` bytes that are written. -/
def strncpy (t : CString) (n : Nat) : List UInt8 :=
  chars n t ++ List.replicate (n - (chars n t).length) 0

/-- `mutex_create(name)` by `a`. No mutex has a buffer for its name, so the `sizeof(name)`
bytes of the name go to address `0` of the caller. -/
def mutexCreate (k : State) (a : Slot) (d : PgDir) (name : CString) : Except String (Int × State) :=
  match Sync.freeMux k.mutexes with
  | none => .ok (-1, k)
  | some i => do
    let mem ← storeUser d 0 (strncpy name 4) k.mem
    let mutex := (k.mutexes i).create (k.procs a).nameSpace
    return ((i.val : Int), { k with mutexes := Function.update k.mutexes i mutex, mem := mem })

def mutexDelete (k : State) (muxid : Int) : Except String (Int × State) :=
  match Sync.withMux muxid (-2, k.mutexes) (Sync.deleteMux k.mutexes) with
  | some (r, mutexes) => .ok (r, { k with mutexes := mutexes })
  | none => .error "mutex_table out of bounds"

/-! ## Shared pages -/

def isShm (s : SharedMemory) (pa : Nat) : Nat :=
  match (List.finRange shmMaxNum).find? fun i => (s.mems i).pa == pa with
  | some i => (s.mems i).pa
  | none => 0

def shmIndex (s : SharedMemory) (pa : Nat) : Fin shmMaxNum :=
  ((List.finRange shmMaxNum).find? fun i => (s.mems i).pa == pa).getD 0

/-- The first block in use with the given name. -/
def findShm (s : SharedMemory) (name : CString) : Option (Fin shmMaxNum) :=
  (List.finRange shmMaxNum).find? fun i =>
    0 < (s.mems i).ref && strncmp name (s.mems i).name shmNameLen == 0

/-- The first loop of `shm_get`: the page found, or `0`. -/
def shmAttach (s : SharedMemory) (name : CString) : Nat × SharedMemory :=
  match findShm s name with
  | some i => ((s.mems i).pa, s.update i fun b => { b with ref := b.ref + 1 })
  | none => (0, s)

/-- The block that a new page is recorded in, with its mutex. -/
def shmRecord (k : State) (a : Slot) (d : PgDir) (name : CString) (pa : Nat) :
    Except String State :=
  match (List.finRange shmMaxNum).find? fun i => (k.shared.mems i).ref == 0 with
  | none => .ok k
  | some i => do
    let shared := k.shared.update i fun b => { b with name := name.take shmNameLen, ref := 1, pa := pa }
    let (id, k) ← mutexCreate { k with shared := shared } a d [115, 104, 109, 95, 109, 117, 116, 101, 120]
    if id = -1 then return k
    else return { k with shared := k.shared.update i fun b => { b with mutexIndex := id } }

/-- `V2P(kalloc())` and the `memset` after it. For a null pointer the page is `KERNBASE`, and
the `memset` goes to address `0` of the caller. -/
def shmPage (d : PgDir) (m : Mem) : Except String (Nat × Mem) :=
  match kalloc m with
  | some (pa, m) => .ok (pa, m.memset pa 0 pgSize)
  | none => do
    let m ← storeUser d 0 (List.replicate pgSize 0) m
    return (v2p 0, m)

/-- The branch of `shm_get` for a name that is not in use: the new page, or `none` for
`return 0`. -/
def shmCreate (k : State) (a : Slot) (d : PgDir) (name : CString) :
    Except String (Option Nat × State) :=
  if k.shared.num + 1 ≥ shmMaxNum then .ok (none, k)
  else do
    let (pa, mem) ← shmPage d k.mem
    if pa = 0 then return (none, { k with mem := mem })
    else
      let k ← shmRecord { k with mem := mem, mutexes := Sync.mutexInit } a d name pa
      return (some pa, { k with shared := { k.shared with num := k.shared.num + 1 } })

/-- The entry of the process table in which `shm_get` records a mapping. -/
def recordMapping (shm : Fin shmMaxNum → ShmMapping) (name : CString) (va : Nat) :
    Fin shmMaxNum → ShmMapping :=
  match (List.finRange shmMaxNum).find? fun i => (shm i).va == 0 with
  | some i => Function.update shm i ⟨name.take shmNameLen, va⟩
  | none => shm

/-- The end of `shm_get`, from `mappages` on. -/
def shmMap (L : Layout) (k : State) (a : Slot) (d : PgDir) (name : CString) (pa : Nat) :
    Except String (Int × State) := do
  let sz := (k.procs a).sz
  let newsz := (sz + pgSize) % uintMod
  let (ok, d, mem) ← mappages d (pgRoundUp sz) pgSize pa .wu k.mem
  let k := { k.update a fun p => { p with pgdir := some d } with mem := mem }
  if ok then
    if newsz ≠ 0 then
      return (pgRoundUp sz, k.update a fun p => { p with sz := newsz, shm := recordMapping p.shm name sz })
    else return (-1, k)
  else
    let mem ← kfree L k.mem pa
    return (0, { k with mem := mem })

def shmGet (L : Layout) (k : State) (a : Slot) : Option CString → Except String (Int × State)
  | none => .ok (-1, k)
  | some name =>
    if ((k.procs a).sz + pgSize) % uintMod ≥ kernBase then .ok (-1, k)
    else
      match (k.procs a).pgdir with
      | none => .error "trap"
      | some d =>
        let (pa, shared) := shmAttach k.shared name
        let k := { k with shared := shared }
        if pa = 0 then do
          match ← shmCreate k a d name with
          | (none, k) => return (0, k)
          | (some pa, k) => shmMap L k a d name pa
        else shmMap L k a d name pa

def shmDetach (L : Layout) (k : State) (name : CString) : Except String (Int × State) :=
  match findShm k.shared name with
  | none => .ok (0, k)
  | some i =>
    let shared := k.shared.update i fun b => { b with ref := b.ref - 1 }
    if (shared.mems i).ref = 0 then do
      let mem ← kfree L k.mem (shared.mems i).pa
      let shared := shared.update i fun b => { b with pa := 0, name := [] }
      let (r, k) ← mutexDelete { k with mem := mem, shared := shared } (shared.mems i).mutexIndex
      if r ≠ 1 then return (-1, k)
      else return (0, { k with shared := { k.shared with num := k.shared.num - 1 } })
    else .ok (0, { k with shared := shared })

def szLess (sz : Nat) : Nat := (sz + uintMod - pgSize) % uintMod

/-- `shm_rem(name)` by `a`. The `memset` of the entry's name has its arguments swapped and
changes nothing. -/
def shmRem (L : Layout) (k : State) (a : Slot) : Option CString → Except String (Int × State)
  | none => .ok (-1, k)
  | some name =>
    match (List.finRange shmMaxNum).find? fun i =>
        strncmp name ((k.procs a).shm i).name shmNameLen == 0 with
    | none => .ok (-1, k)
    | some i =>
      match (k.procs a).pgdir with
      | none => .error "trap"
      | some d =>
        let k := k.update a fun p =>
          { p with
            pgdir := some (d.set (p.shm i).va .zero)
            shm := Function.update p.shm i { p.shm i with va := 0 }
            sz := szLess p.sz }
        shmDetach L k name

/-- The branches of `growproc(n)` on the sign of `n`. -/
def resize (L : Layout) (d : PgDir) (sz : Nat) (n : Int) (m : Mem) :
    Except String (Nat × PgDir × Mem) :=
  let newsz := (((sz : Int) + n) % uintMod).toNat
  if n > 0 then allocuvm L d sz newsz m
  else if n < 0 then deallocuvm L d sz newsz m
  else .ok (sz, d, m)

def growproc (L : Layout) (k : State) (a : Slot) (n : Int) : Except String (Int × State) :=
  match (k.procs a).pgdir with
  | none => .error "trap"
  | some d => do
    let (sz, d, mem) ← resize L d (k.procs a).sz n k.mem
    let k := { k.update a fun p => { p with pgdir := some d } with mem := mem }
    if n ≠ 0 ∧ sz = 0 then return (-1, k)
    else return (0, k.update a fun p => { p with sz := sz })

/-! ## `fork` -/

def pageBytes (m : Mem) (pa : Nat) : List UInt8 := (List.range pgSize).map fun i => m.ram (pa + i)

/-- The loop of `copyuvm`, for the given number of rounds. -/
def copyuvmLoop (L : Layout) (pgdir : PgDir) :
    Nat → Nat → PgDir → SharedMemory → Mem → Except String (Option PgDir × SharedMemory × Mem)
  | 0, _, d, s, m => .ok (some d, s, m)
  | n + 1, i, d, s, m =>
    match pgdir.walk i with
    | none => .error "copyuvm: pte should exist"
    | some pte =>
      if ¬ pte.present then copyuvmLoop L pgdir n (i + pgSize) d s m
      else if isShm s pte.addr = pte.addr then do
        let (ok, d, m) ← mappages d i pgSize pte.addr pte.perm m
        if ok then
          let s := s.update (shmIndex s pte.addr) fun b => { b with ref := b.ref + 1 }
          copyuvmLoop L pgdir n (i + pgSize) d s m
        else
          let m ← freevm L d m
          return (none, s, m)
      else
        match kalloc m with
        | none => do
          let m ← freevm L d m
          return (none, s, m)
        | some (mem, m) => do
          let m := m.memmove mem (pageBytes m pte.addr)
          let (ok, d, m) ← mappages d i pgSize mem pte.perm m
          if ok then copyuvmLoop L pgdir n (i + pgSize) d s m
          else
            let m ← freevm L d m
            return (none, s, m)

def copyuvm (L : Layout) (pgdir : PgDir) (sz : Nat) (s : SharedMemory) (m : Mem) :
    Except String (Option PgDir × SharedMemory × Mem) := do
  match ← setupkvm L m with
  | (none, m) => return (none, s, m)
  | (some d, m) => copyuvmLoop L pgdir ((sz + pgSize - 1) / pgSize) 0 d s m

/-- `allocproc()`. Its `memset` of `p->shm` has its arguments swapped and changes nothing. -/
def allocproc (k : State) : Option Slot × State :=
  match freeSlot fun p => (k.procs p).state with
  | none => (none, k)
  | some p =>
    let pid := k.nextpid
    let k := { k with nextpid := k.nextpid + 1 }
    match kalloc k.mem with
    | none => (none, k.update p fun x => { x with pid := pid, kstack := none, state := .unused })
    | some (kstack, mem) =>
      let k := { k with mem := mem }
      (some p, k.update p fun x =>
        { x with
          state := .embryo
          pid := pid
          kstack := some kstack
          maxproc := 0
          maxprocset := 0
          newrootInode := none
          inNewroot := 0
          inContainer := 0
          nameSpace := 0 })

/-- `idup` of an inode pointer that is not null. -/
def idup? (fs : Fs.FsState) : Option Fs.Slot → Fs.FsState
  | some ip => Fs.idup fs ip
  | none => fs

def forkEnqueue (k : State) (np parent : Slot) : State :=
  let par := k.procs parent
  if par.queueType = 0 then
    let k := k.update np fun p => { p with fpPriority := par.fpPriority, queueType := 0 }
    { k with queues := (Sched.fpEnqueue k.queues np .runnable par.fpPriority).2 }
  else if par.queueType = 1 then
    let (_, queues, prio) := Sched.hfsEnqueue k.queues np .runnable par.hfsPriority
    let k := k.update np fun p => { p with hfsPriority := prio, queueType := 1 }
    { k with queues := queues }
  else k

def fork (L : Layout) (k : State) (a : Slot) : Except String (Int × State) :=
  match allocproc k with
  | (none, k) => .ok (-1, k)
  | (some np, k) =>
    let cur := k.procs a
    let newroot := if cur.inNewroot ≠ 0 then cur.newrootInode else none
    let k := k.update np fun p =>
      { p with
        maxprocset := cur.maxprocset
        maxproc := cur.maxproc
        inNewroot := cur.inNewroot
        inContainer := cur.inContainer
        nameSpace := cur.nameSpace
        newrootInode := newroot }
    let k := { k with fs := idup? k.fs newroot }
    match cur.pgdir, (k.procs np).kstack with
    | some pgdir, some kstack => do
      match ← copyuvm L pgdir cur.sz k.shared k.mem with
      | (none, shared, mem) =>
        let mem ← kfree L mem kstack
        let k := { k with shared := shared, mem := mem }
        return (-1, k.update np fun p => { p with pgdir := none, kstack := none, state := .unused })
      | (some d, shared, mem) =>
        let k := { k with shared := shared, mem := mem, fs := idup? k.fs cur.cwd }
        let k := k.update np fun p =>
          { p with
            pgdir := some d
            sz := cur.sz
            parent := some a
            tf := { cur.tf with eax := 0 }
            shm := cur.shm
            cwd := cur.cwd
            name := cur.name
            state := .runnable }
        return ((k.procs np).pid, forkEnqueue k np a)
    | _, _ => .error "trap"

/-! ## `exec` -/

def toLe32 (x : Nat) : List UInt8 :=
  [UInt8.ofNat x, UInt8.ofNat (x / 2 ^ 8), UInt8.ofNat (x / 2 ^ 16), UInt8.ofNat (x / 2 ^ 24)]

abbrev elfMagic : Nat := 0x464C457F
abbrev elfProgLoad : Nat := 1
abbrev elfHdrSize : Nat := 52
abbrev progHdrSize : Nat := 32

/-- The loop over the program headers; the flag is `false` for `goto bad`. -/
def loadSegments (L : Layout) (file : List UInt8) :
    Nat → Nat → Nat → PgDir → Mem → Except String (Bool × Nat × PgDir × Mem)
  | 0, _, sz, d, m => .ok (true, sz, d, m)
  | n + 1, off, sz, d, m =>
    match readi file off progHdrSize with
    | none => .ok (false, sz, d, m)
    | some ph =>
      let offset := uintAt ph 4
      let vaddr := uintAt ph 8
      let filesz := uintAt ph 16
      let memsz := uintAt ph 20
      let top := (vaddr + memsz) % uintMod
      if ph.length ≠ progHdrSize then .ok (false, sz, d, m)
      else if uintAt ph 0 ≠ elfProgLoad then
        loadSegments L file n ((off + progHdrSize) % uintMod) sz d m
      else if memsz < filesz then .ok (false, sz, d, m)
      else if top < vaddr then .ok (false, sz, d, m)
      else do
        let (sz, d, m) ← allocuvm L d sz top m
        if sz = 0 then return (false, sz, d, m)
        else if vaddr % pgSize ≠ 0 then return (false, sz, d, m)
        else
          let (ok, m) ← loaduvm d vaddr file offset filesz m
          if ok then loadSegments L file n ((off + progHdrSize) % uintMod) sz d m
          else return (false, sz, d, m)

/-- The loop that pushes the argument strings, from argument `argc` on: the stack pointer
and the addresses of the strings, or `none` for `goto bad`. -/
def pushArgs (d : PgDir) :
    List CString → Nat → Nat → Mem → Except String (Option (Nat × List Nat) × Mem)
  | [], _, sp, m => .ok (some (sp, []), m)
  | arg :: args, argc, sp, m =>
    if argc ≥ maxArg then .ok (none, m)
    else do
      let bytes := arg.takeWhile (· ≠ 0) ++ [0]
      let sp := (sp + uintMod - bytes.length % uintMod) % uintMod / 4 * 4
      let (ok, m) ← copyout d sp bytes m
      if ok then
        let (rest, m) ← pushArgs d args (argc + 1) sp m
        return (rest.map fun r => (r.1, sp :: r.2), m)
      else return (none, m)

/-- The stack of the new image: its stack pointer, or `none` for `goto bad`. -/
def pushStack (d : PgDir) (argv : List CString) (sz : Nat) (m : Mem) :
    Except String (Option Nat × Mem) := do
  match ← pushArgs d argv 0 sz m with
  | (none, m) => return (none, m)
  | (some (sp, ptrs), m) =>
    let argc := ptrs.length
    let argvPtr := (sp + uintMod - (argc + 1) * 4) % uintMod
    let ustack := [0xffffffff, argc, argvPtr] ++ ptrs ++ [0]
    let sp := (sp + uintMod - (3 + argc + 1) * 4) % uintMod
    let (ok, m) ← copyout d sp (ustack.flatMap toLe32) m
    return (if ok then some sp else none, m)

/-- The new image of `exec`: page table, size and stack pointer, or `none` after `bad`. -/
def execImage (L : Layout) (file : List UInt8) (argv : List CString) (m : Mem) :
    Except String (Option (PgDir × Nat × Nat) × Mem) :=
  if file.length < elfHdrSize ∨ uintAt file 0 ≠ elfMagic then .ok (none, m)
  else do
    match ← setupkvm L m with
    | (none, m) => return (none, m)
    | (some d, m) =>
      let (ok, sz, d, m) ← loadSegments L file (ushortAt file 44) (uintAt file 28) 0 d m
      if ¬ ok then
        let m ← freevm L d m
        return (none, m)
      else
        let (sz, d, m) ← allocuvm L d (pgRoundUp sz) ((pgRoundUp sz + 2 * pgSize) % uintMod) m
        if sz = 0 then
          let m ← freevm L d m
          return (none, m)
        else
          let d ← clearpteu d (sz - 2 * pgSize)
          match ← pushStack d argv sz m with
          | (none, m) =>
            let m ← freevm L d m
            return (none, m)
          | (some sp, m) => return (some (d, sz, sp), m)

def lastElem (path : CString) : CString :=
  let path := path.takeWhile (· ≠ 0)
  (path.reverse.takeWhile (· ≠ Fs.slash)).reverse

/-- The fields of a process that path lookup reads. -/
def Proc.toFs (p : Proc) (cwd : Fs.Slot) : Fs.Proc := ⟨cwd, p.inNewroot, p.newrootInode⟩

/-- `exec(path, argv)` by `a`; `buf` is what the buffer for path components holds. -/
def exec (L : Layout) (k : State) (a : Slot) (path buf : CString) (argv : List CString) :
    Except String (Int × State) :=
  match (k.procs a).cwd, (k.procs a).pgdir with
  | some cwd, some oldpgdir => do
    match ← Fs.namei ((k.procs a).toFs cwd) path buf k.fs with
    | (none, fs) => return (-1, { k with fs := fs })
    | (some ip, fs) =>
      let fs ← Fs.ilock fs ip
      let file := (fs.icache ip).copy.content
      let k := { k with fs := Fs.iput fs ip }
      match ← execImage L file argv k.mem with
      | (none, mem) => return (-1, { k with mem := mem })
      | (some (d, sz, sp), mem) =>
        let mem ← freevm L oldpgdir mem
        let k := { k with mem := mem }
        return (0, k.update a fun p =>
          { p with
            name := (lastElem path).take 15
            procMutexes := fun _ => -1
            pgdir := some d
            sz := sz
            tf := { p.tf with eip := uintAt file 24, esp := sp } })
  | _, _ => .error "trap"

/-! ## `exit` and `wait` -/

/-- The round of `wakeup1(chan)` for one process. -/
def wakeSlot (chan : Option Slot) (k : State) (p : Slot) : State :=
  let k :=
    if (k.procs p).state = .sleeping ∧ (k.procs p).chan = chan then
      k.update p fun x => { x with state := .runnable }
    else k
  let x := k.procs p
  if x.queueType = 0 then
    { k with queues := (Sched.fpEnqueue k.queues p x.state x.fpPriority).2 }
  else if x.queueType = 1 then
    let (_, queues, prio) := Sched.hfsEnqueue k.queues p x.state 0
    { k.update p fun x => { x with hfsPriority := prio } with queues := queues }
  else k

def wakeup1 (chan : Option Slot) (k : State) : State :=
  (List.finRange nproc).foldl (wakeSlot chan) k

/-- The loop of `exit` over the shared pages. -/
def exitShm (L : Layout) (a : Slot) : List (Fin shmMaxNum) → State → Except String State
  | [], k => .ok k
  | i :: is, k =>
    if ((k.procs a).shm i).va ≠ 0 then do
      let (_, k) ← shmRem L k a (some ((k.procs a).shm i).name)
      exitShm L a is k
    else exitShm L a is k

/-- The round of `exit` that passes a child of `a` to `init`. -/
def reparentSlot (a : Slot) (k : State) (p : Slot) : State :=
  if (k.procs p).parent = some a then
    let k := k.update p fun x => { x with parent := some k.initproc }
    if (k.procs p).state = .zombie then wakeup1 (some k.initproc) k else k
  else k

def exit (L : Layout) (k : State) (a : Slot) : Except String State :=
  if a = k.initproc then .error "init exiting"
  else do
    let k ← exitShm L a (List.finRange shmMaxNum) k
    match (k.procs a).cwd with
    | none => .error "trap"
    | some cwd =>
      let k := { k.update a fun p => { p with cwd := none } with fs := Fs.iput k.fs cwd }
      let k := wakeup1 (k.procs a).parent k
      let k := (List.finRange nproc).foldl (reparentSlot a) k
      return k.update a fun p => { p with state := .zombie }

/-- The first child of `a` that `wait` can reap. -/
def zombieChild (k : State) (a : Slot) : Option Slot :=
  Xv6.zombieChild (fun p => (k.procs p).parent) (fun p => (k.procs p).state) a

/-- One scan of `wait()` by `a`; without a result the process has gone to sleep and will
scan again. -/
def wait (L : Layout) (k : State) (a : Slot) : Except String (Option Int × State) :=
  match zombieChild k a with
  | some p =>
    match (k.procs p).kstack, (k.procs p).pgdir with
    | none, _ => .error "kfree"
    | some _, none => .error "freevm: no pgdir"
    | some kstack, some pgdir => do
      let mem ← kfree L k.mem kstack
      let mem ← freevm L pgdir mem
      let k' := k.update p fun x =>
        { x with
          kstack := none
          pid := 0
          parent := none
          name := []
          killed := false
          state := .unused }
      return (some (k.procs p).pid, { k' with mem := mem })
  | none =>
    let havekids := (List.finRange nproc).any fun p => decide ((k.procs p).parent = some a)
    if ¬ havekids ∨ (k.procs a).killed then .ok (some (-1), k)
    else .ok (none, k.update a fun p => { p with chan := some a, state := .sleeping })

/-! ## `cm_maxproc` -/

/-- The walk of `do_maxproc` along the parents: whether some process on it has
`maxprocset`. -/
def lineageSet (k : State) : Nat → Option Slot → Except String Bool
  | _, none => .ok false
  | 0, some _ => .error "do_maxproc: out of fuel"
  | fuel + 1, some p =>
    if (k.procs p).maxprocset ≠ 0 then .ok true else lineageSet k fuel (k.procs p).parent

def doMaxproc (k : State) (a : Slot) (n : Int) : Except String (Int × State) := do
  if ← lineageSet k nproc (some a) then return (-1, k)
  else return (0, k.update a fun p => { p with maxproc := n, maxprocset := 1 })

/-! ## System call arguments -/

/-- A load of the kernel through the page table of the running process. -/
def loadUser (d : PgDir) (m : Mem) (va : Nat) : Except String UInt8 :=
  match d.walk va with
  | none => .error "trap"
  | some pte => if pte.present then .ok (m.ram (pte.addr + va % pgSize)) else .error "trap"

/-- `fetchint(addr, ip)`: the word read, or `none` for `-1`. -/
def fetchint (p : Proc) (d : PgDir) (m : Mem) (addr : Nat) : Except String (Option Nat) :=
  if addr ≥ p.sz ∨ (addr + 4) % uintMod > p.sz then .ok none
  else do
    let b0 ← loadUser d m addr
    let b1 ← loadUser d m (addr + 1)
    let b2 ← loadUser d m (addr + 2)
    let b3 ← loadUser d m (addr + 3)
    return some (uintAt [b0, b1, b2, b3] 0)

/-- The loop of `fetchstr`, for the given number of rounds. -/
def fetchstrLoop (d : PgDir) (m : Mem) (addr : Nat) : Nat → Nat → Except String (Option Nat)
  | 0, _ => .ok none
  | n + 1, s => do
    let b ← loadUser d m s
    if b = 0 then return some (s - addr) else fetchstrLoop d m addr n (s + 1)

/-- `fetchstr(addr, pp)`: the length of the string, or `none` for `-1`. -/
def fetchstr (p : Proc) (d : PgDir) (m : Mem) (addr : Nat) : Except String (Option Nat) :=
  if addr ≥ p.sz then .ok none else fetchstrLoop d m addr (p.sz - addr) addr

def argint (p : Proc) (d : PgDir) (m : Mem) (n : Nat) : Except String (Option Nat) :=
  fetchint p d m ((p.tf.esp + 4 + 4 * n) % uintMod)

/-- `argptr(n, pp, size)`: the address, or `none` for `-1`. -/
def argptr (p : Proc) (d : PgDir) (m : Mem) (n : Nat) (size : Int) : Except String (Option Nat) := do
  match ← argint p d m n with
  | none => return none
  | some i =>
    if size < 0 ∨ i ≥ p.sz ∨ (i + size.toNat) % uintMod > p.sz then return none
    else return some i

/-! ## Runs -/

inductive Call
  | shmGet (name : Option CString)
  | shmRem (name : Option CString)
  | growproc (n : Int)
  | fork
  | exec (path buf : CString) (argv : List CString)
  | exit
  | wait
  | maxproc (n : Int)

def Proc.CanRun (p : Proc) : Prop := p.state = .runnable ∨ p.state = .running

instance (p : Proc) : Decidable p.CanRun := inferInstanceAs (Decidable (_ ∨ _))

/-- A call by `a`, with what it returns if it returns now. -/
def call (L : Layout) (k : State) (a : Slot) : Call → Except String (Option Int × State)
  | .shmGet name => do let (r, k) ← shmGet L k a name; return (some r, k)
  | .shmRem name => do let (r, k) ← shmRem L k a name; return (some r, k)
  | .growproc n => do let (r, k) ← growproc L k a n; return (some r, k)
  | .fork => do let (r, k) ← fork L k a; return (some r, k)
  | .exec path buf argv => do let (r, k) ← exec L k a path buf argv; return (some r, k)
  | .exit => do let k ← exit L k a; return (none, k)
  | .wait => wait L k a
  | .maxproc n => do let (r, k) ← doMaxproc k a n; return (some r, k)

/-- A call that has been made: by whom, which, and what it returned. -/
structure Event where
  slot : Slot
  call : Call
  ret : Option Int

def Step (L : Layout) (k : State) (e : Event) (k' : State) : Prop :=
  (k.procs e.slot).CanRun ∧ call L k e.slot e.call = .ok (e.ret, k')

end Xv6.Kernel
