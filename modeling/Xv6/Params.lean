import Mathlib.Algebra.GroupWithZero.Nat

/-! # Compile-time parameters of the kernel

The constants of `param.h`, `proc.h`, `fs.h`, `mutex.h`, `shm.h`, `pipe.c`, `mmu.h` and
`memlayout.h` that the modelled code reads. Sizes are natural numbers; where the
source computes in `uint` the model reduces modulo `uintMod` explicitly.
-/

namespace Xv6

abbrev uintMod : Nat := 2 ^ 32

/-! ## `param.h` -/

abbrev nproc : Nat := 64
abbrev nOFile : Nat := 16
abbrev nFile : Nat := 100
abbrev nInode : Nat := 50
abbrev rootDev : Nat := 1
abbrev maxArg : Nat := 32
abbrev maxOpBlocks : Nat := 10
abbrev logSize : Nat := maxOpBlocks * 3
abbrev maxPath : Nat := 256

/-! ## `proc.h` -/

abbrev queueSize : Nat := 50
abbrev prioMax : Nat := 10
abbrev hfsPrioMax : Nat := 10
abbrev muxMaxNum : Nat := 16

/-! ## `shm.h` -/

abbrev shmMaxNum : Nat := 16
abbrev shmNameLen : Nat := 16

/-! ## `pipe.c` -/

abbrev pipeSize : Nat := 512

/-! ## `fs.h` -/

abbrev rootIno : Nat := 1
abbrev bSize : Nat := 1024
abbrev nDirect : Nat := 12
abbrev nIndirect : Nat := bSize / 4
abbrev maxFile : Nat := nDirect + nIndirect
abbrev dirSiz : Nat := 14

/-! ## No table is empty -/

instance nproc_neZero : NeZero nproc := ⟨by decide⟩
instance nFile_neZero : NeZero nFile := ⟨by decide⟩
instance nInode_neZero : NeZero nInode := ⟨by decide⟩
instance shmMaxNum_neZero : NeZero shmMaxNum := ⟨by decide⟩

/-! ## `mmu.h` and `memlayout.h` -/

abbrev pgSize : Nat := 4096
abbrev npdEntries : Nat := 1024
abbrev kernBase : Nat := 0x80000000
abbrev extMem : Nat := 0x100000
abbrev physTop : Nat := 0xE000000
abbrev devSpace : Nat := 0xFE000000
abbrev kernLink : Nat := kernBase + extMem

def pgRoundUp (sz : Nat) : Nat :=
  (sz + pgSize - 1) % uintMod / pgSize * pgSize

def pgRoundDown (a : Nat) : Nat :=
  a / pgSize * pgSize

/-- `PDX`, the page directory index of an address. -/
def pdx (va : Nat) : Nat :=
  va / 2 ^ 22 % 1024

/-- `PTX`, the page table index of an address. -/
def ptx (va : Nat) : Nat :=
  va / 2 ^ 12 % 1024

/-- `PGADDR`, the address with the given indices and offset, in `uint` arithmetic. -/
def pgAddr (d t o : Nat) : Nat :=
  (d * 2 ^ 22 + t * 2 ^ 12 + o) % uintMod

/-- `V2P`, in `uint` arithmetic: the null pointer becomes `KERNBASE`. -/
def v2p (va : Nat) : Nat :=
  (va + uintMod - kernBase) % uintMod

def p2v (pa : Nat) : Nat :=
  (pa + kernBase) % uintMod

/-! ## `enum procstate` -/

inductive ProcState
  | unused | embryo | sleeping | runnable | running | zombie
  deriving DecidableEq, Repr

end Xv6
