import Xv6.Kernel.RegionMutexes

/-! # `shm_get` all or nothing

`shm_get` should map and record a region, or return an error and leave no trace. It gives up in
time where the address space is full or there are too many regions. Past these tests it has changed
the tables before it asks for the page table of the mapping, it does not notice that there is no
page for the region, and it records the size of the process where that is not the address of the
mapping.
-/

namespace Xv6.Kernel

open Lib Vm

variable {d : PgDir} {pa : Nat} {k1 : State}

/-! ## Outcomes -/

/-- The shared memory, the mutexes, the free list, the user memory, and the address space of `a` are
as before. -/
structure Unchanged (k : State) (a : Slot) (k' : State) : Prop where
  shared : k'.shared = k.shared
  mutexes : k'.mutexes = k.mutexes
  free : k'.mem.free = k.mem.free
  entries : ∀ d, (k.procs a).pgdir = some d →
    ∃ d', (k'.procs a).pgdir = some d' ∧ ∀ b, b < kernBase → d'.entry b = d.entry b
  shm : (k'.procs a).shm = (k.procs a).shm
  sz : (k'.procs a).sz = (k.procs a).sz
  memory : ∀ q d b, (k.procs q).pgdir = some d → b < kernBase → (d.entry b).present = true →
    k'.mem.ram ((d.entry b).addr + b % pgSize) = k.mem.ram ((d.entry b).addr + b % pgSize)

theorem Unchanged.refl (k : State) (a : Slot) : Unchanged k a k :=
  ⟨rfl, rfl, rfl, fun d hd => ⟨d, hd, fun _ _ => rfl⟩, rfl, rfl, fun _ _ _ _ _ _ => rfl⟩

section Steps

variable {L : Layout} {k k' : State} {a : Slot} {d : PgDir} {name : CString} {pa : Nat}

end Steps

/-! ## The theorem -/

section Outcome

variable {L : Layout} {k k' : State} {a : Slot} {name : CString} {r : Int}

end Outcome

end Xv6.Kernel
