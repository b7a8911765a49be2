import Mathlib.Logic.Function.Basic
import Xv6.Params

/-! # Physical pages and page tables: `kalloc.c` and `vm.c`

A page is named by its physical address. A page directory is the tree of its page tables,
each with the page it lies in; a page directory entry is absent or a page table. A page table
entry is its address and the three flags that the kernel sets. Memory is the free list and the
contents of physical memory. A `panic` is an error with its message; a function of the source
that returns a pointer or `0` returns an `Option`.
-/

namespace Xv6.Vm

/-- The addresses `data` and `end` that `kernel.ld` provides. -/
structure Layout where
  data : Nat
  kend : Nat
  data_aligned : pgSize ∣ data
  kernLink_lt_data : kernLink < data
  data_lt_kend : data < kend
  kend_le_top : kend ≤ kernBase + physTop

structure Perm where
  write : Bool
  user : Bool
  deriving DecidableEq

abbrev Perm.wu : Perm := ⟨true, true⟩

structure Pte where
  addr : Nat
  present : Bool
  perm : Perm
  deriving DecidableEq

abbrev Pte.zero : Pte := ⟨0, false, ⟨false, false⟩⟩

structure PgTab where
  page : Nat
  pte : Nat → Pte

structure PgDir where
  page : Nat
  pde : Nat → Option PgTab

structure Mem where
  free : List Nat
  ram : Nat → UInt8

/-! ## `kalloc.c` -/

/-- `memset` of `n` bytes at a physical address. -/
def Mem.memset (m : Mem) (pa : Nat) (c : UInt8) (n : Nat) : Mem :=
  { m with ram := fun x => if pa ≤ x ∧ x < pa + n then c else m.ram x }

/-- `memmove` of bytes to a physical address. -/
def Mem.memmove (m : Mem) (pa : Nat) (bytes : List UInt8) : Mem :=
  { m with ram := fun x => if pa ≤ x ∧ x < pa + bytes.length then bytes.getD (x - pa) 0 else m.ram x }

def kalloc (m : Mem) : Option (Nat × Mem) :=
  match m.free with
  | [] => none
  | pa :: free => some (pa, { m with free := free })

def kfree (L : Layout) (m : Mem) (pa : Nat) : Except String Mem :=
  let v := p2v pa
  if v % pgSize ≠ 0 ∨ v < L.kend ∨ v2p v ≥ physTop then .error "kfree"
  else .ok { m.memset pa 1 pgSize with free := pa :: m.free }

/-! ## `walkpgdir` and `mappages` -/

/-- The entry that `walkpgdir(pgdir, va, 0)` points to. -/
def PgDir.walk (d : PgDir) (va : Nat) : Option Pte :=
  (d.pde (pdx va)).map fun t => t.pte (ptx va)

/-- `*pte = x` for the entry of an address that has one. -/
def PgDir.set (d : PgDir) (va : Nat) (x : Pte) : PgDir :=
  match d.pde (pdx va) with
  | none => d
  | some t =>
    let t := { t with pte := Function.update t.pte (ptx va) x }
    { d with pde := Function.update d.pde (pdx va) (some t) }

/-- `walkpgdir(pgdir, va, 1)`: the directory with a page table for `va`. -/
def walkpgdir (d : PgDir) (va : Nat) (m : Mem) : Option (PgDir × Mem) :=
  match d.pde (pdx va) with
  | some _ => some (d, m)
  | none =>
    match kalloc m with
    | none => none
    | some (pgtab, m) =>
      some ({ d with pde := Function.update d.pde (pdx va) (some ⟨pgtab, fun _ => .zero⟩) },
        m.memset pgtab 0 pgSize)

/-- One round of `mappages`; the flag is `false` for `return -1`. -/
def mappage (d : PgDir) (a pa : Nat) (perm : Perm) (m : Mem) : Except String (Bool × PgDir × Mem) :=
  match walkpgdir d a m with
  | none => .ok (false, d, m)
  | some (d, m) =>
    if ((d.walk a).getD .zero).present then .error "remap"
    else .ok (true, d.set a ⟨pa, true, perm⟩, m)

def mappagesLoop (perm : Perm) : Nat → Nat → Nat → PgDir → Mem → Except String (Bool × PgDir × Mem)
  | 0, _, _, d, m => .ok (true, d, m)
  | n + 1, a, pa, d, m => do
    let (ok, d, m) ← mappage d a pa perm m
    if ok then
      mappagesLoop perm n ((a + pgSize) % uintMod) ((pa + pgSize) % uintMod) d m
    else
      return (false, d, m)

/-- `mappages(pgdir, va, size, pa, perm)`; the loop ends in the round with `a == last`. -/
def mappages (d : PgDir) (va size pa : Nat) (perm : Perm) (m : Mem) :
    Except String (Bool × PgDir × Mem) :=
  let a := pgRoundDown va
  let last := pgRoundDown ((va + size + uintMod - 1) % uintMod)
  mappagesLoop perm ((last + uintMod - a) % uintMod / pgSize + 1) a pa d m

/-! ## Releasing memory -/

/-- The loop of `deallocuvm`. Each round moves on by a page at least. -/
def deallocuvmLoop (L : Layout) (oldsz : Nat) : Nat → Nat → PgDir → Mem → Except String (PgDir × Mem)
  | 0, _, _, _ => .error "deallocuvm: out of fuel"
  | fuel + 1, a, d, m =>
    if a < oldsz then
      match d.walk a with
      | none => deallocuvmLoop L oldsz fuel (pgAddr (pdx a + 1) 0 0) d m
      | some pte =>
        if pte.present then
          if pte.addr = 0 then .error "kfree"
          else do
            let m ← kfree L m pte.addr
            deallocuvmLoop L oldsz fuel ((a + pgSize) % uintMod) (d.set a .zero) m
        else deallocuvmLoop L oldsz fuel ((a + pgSize) % uintMod) d m
    else .ok (d, m)

def deallocuvm (L : Layout) (d : PgDir) (oldsz newsz : Nat) (m : Mem) :
    Except String (Nat × PgDir × Mem) :=
  if newsz ≥ oldsz then .ok (oldsz, d, m)
  else do
    let (d, m) ← deallocuvmLoop L oldsz (oldsz / pgSize + 2) (pgRoundUp newsz) d m
    return (newsz, d, m)

def freePgTabs (L : Layout) (d : PgDir) : List Nat → Mem → Except String Mem
  | [], m => .ok m
  | i :: is, m =>
    match d.pde i with
    | none => freePgTabs L d is m
    | some t => do
      let m ← kfree L m t.page
      freePgTabs L d is m

def freevm (L : Layout) (d : PgDir) (m : Mem) : Except String Mem := do
  let (_, d, m) ← deallocuvm L d kernBase 0 m
  let m ← freePgTabs L d (List.range npdEntries) m
  kfree L m d.page

/-! ## Building page tables -/

structure Kmap where
  virt : Nat
  physStart : Nat
  physEnd : Nat
  perm : Perm

def kmap (L : Layout) : List Kmap :=
  [⟨kernBase, 0, extMem, ⟨true, false⟩⟩,
    ⟨kernLink, v2p kernLink, v2p L.data, ⟨false, false⟩⟩,
    ⟨L.data, v2p L.data, physTop, ⟨true, false⟩⟩,
    ⟨devSpace, devSpace, 0, ⟨true, false⟩⟩]

def setupkvmLoop (L : Layout) : List Kmap → PgDir → Mem → Except String (Option PgDir × Mem)
  | [], d, m => .ok (some d, m)
  | k :: ks, d, m => do
    let size := (k.physEnd + uintMod - k.physStart) % uintMod
    let (ok, d, m) ← mappages d k.virt size k.physStart k.perm m
    if ok then
      setupkvmLoop L ks d m
    else
      let m ← freevm L d m
      return (none, m)

def setupkvm (L : Layout) (m : Mem) : Except String (Option PgDir × Mem) :=
  match kalloc m with
  | none => .ok (none, m)
  | some (pgdir, m) =>
    if p2v physTop > devSpace then .error "PHYSTOP too high"
    else setupkvmLoop L (kmap L) ⟨pgdir, fun _ => none⟩ (m.memset pgdir 0 pgSize)

/-- The loop of `allocuvm`, for the given number of rounds. -/
def allocuvmLoop (L : Layout) (oldsz newsz : Nat) :
    Nat → Nat → PgDir → Mem → Except String (Nat × PgDir × Mem)
  | 0, _, d, m => .ok (newsz, d, m)
  | n + 1, a, d, m =>
    match kalloc m with
    | none => do
      let (_, d, m) ← deallocuvm L d newsz oldsz m
      return (0, d, m)
    | some (mem, m) => do
      let (ok, d, m) ← mappages d a pgSize mem .wu (m.memset mem 0 pgSize)
      if ok then
        allocuvmLoop L oldsz newsz n (a + pgSize) d m
      else
        let (_, d, m) ← deallocuvm L d newsz oldsz m
        let m ← kfree L m mem
        return (0, d, m)

/-- `allocuvm(pgdir, oldsz, newsz)`; the loop runs while `a < newsz`. -/
def allocuvm (L : Layout) (d : PgDir) (oldsz newsz : Nat) (m : Mem) :
    Except String (Nat × PgDir × Mem) :=
  if newsz ≥ kernBase then .ok (0, d, m)
  else if newsz < oldsz then .ok (oldsz, d, m)
  else
    let a := pgRoundUp oldsz
    allocuvmLoop L oldsz newsz ((newsz + pgSize - 1 - a) / pgSize) a d m

def clearpteu (d : PgDir) (uva : Nat) : Except String PgDir :=
  match d.walk uva with
  | none => .error "clearpteu"
  | some pte => .ok (d.set uva { pte with perm := { pte.perm with user := false } })

/-! ## Moving bytes -/

/-- `readi(ip, …, off, n)` on the content of a file: the bytes read, or `none` for `-1`. -/
def readi (content : List UInt8) (off n : Nat) : Option (List UInt8) :=
  if off > content.length ∨ (off + n) % uintMod < off then none
  else some ((content.drop off).take n)

/-- The loop of `loaduvm`, for the given number of rounds. -/
def loaduvmLoop (d : PgDir) (addr : Nat) (file : List UInt8) (offset sz : Nat) :
    Nat → Nat → Mem → Except String (Bool × Mem)
  | 0, _, m => .ok (true, m)
  | n + 1, i, m =>
    match d.walk ((addr + i) % uintMod) with
    | none => .error "loaduvm: address should exist"
    | some pte =>
      let len := if sz - i < pgSize then sz - i else pgSize
      match readi file ((offset + i) % uintMod) len with
      | none => .ok (false, m)
      | some bytes =>
        let m := m.memmove pte.addr bytes
        if bytes.length ≠ len then .ok (false, m)
        else loaduvmLoop d addr file offset sz n (i + pgSize) m

/-- `loaduvm(pgdir, addr, ip, offset, sz)`; the flag is `false` for `return -1`. -/
def loaduvm (d : PgDir) (addr : Nat) (file : List UInt8) (offset sz : Nat) (m : Mem) :
    Except String (Bool × Mem) :=
  if addr % pgSize ≠ 0 then .error "loaduvm: addr must be page aligned"
  else loaduvmLoop d addr file offset sz ((sz + pgSize - 1) / pgSize) 0 m

/-- `uva2ka(pgdir, uva)`, as a physical address. Without a page table the code reads the
entry at a null pointer. -/
def uva2ka (d : PgDir) (uva : Nat) : Except String (Option Nat) :=
  match d.walk uva with
  | none => .error "uva2ka: null pte"
  | some pte => .ok (if pte.present ∧ pte.perm.user then some pte.addr else none)

/-- The loop of `copyout`; each round ends at a page boundary. -/
def copyoutLoop (d : PgDir) : Nat → Nat → List UInt8 → Mem → Except String (Bool × Mem)
  | 0, _, bytes, m => if bytes = [] then .ok (true, m) else .error "copyout: out of fuel"
  | fuel + 1, va, bytes, m =>
    if bytes = [] then .ok (true, m)
    else do
      let va0 := pgRoundDown va
      match ← uva2ka d va0 with
      | none => return (false, m)
      | some pa0 =>
        let n := min (pgSize - (va - va0)) bytes.length
        copyoutLoop d fuel ((va0 + pgSize) % uintMod) (bytes.drop n)
          (m.memmove (pa0 + (va - va0)) (bytes.take n))

/-- `copyout(pgdir, va, p, len)` for the bytes at `p`. -/
def copyout (d : PgDir) (va : Nat) (bytes : List UInt8) (m : Mem) : Except String (Bool × Mem) :=
  copyoutLoop d (bytes.length / pgSize + 2) va bytes m

/-- A store of the kernel through the page table of the running process. -/
def storeUser (d : PgDir) (va : Nat) (bytes : List UInt8) (m : Mem) : Except String Mem :=
  match d.walk va with
  | none => .error "trap"
  | some pte =>
    if pte.present ∧ pte.perm.write then .ok (m.memmove (pte.addr + va % pgSize) bytes)
    else .error "trap"

end Xv6.Vm
