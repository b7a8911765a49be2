import Xv6.Params
import Xv6.Lib.Search

/-! # The loops over `ptable.proc`

The slot that `allocproc` takes and the child that `wait` reaps, in every model of `proc.c`.
-/

namespace Xv6

open Lib

variable {state : Fin nproc → ProcState} {parent : Fin nproc → Option (Fin nproc)} {p q : Fin nproc}

def freeSlot (state : Fin nproc → ProcState) : Option (Fin nproc) :=
  (List.finRange nproc).find? fun q => state q == .unused

theorem unused_of_freeSlot (h : freeSlot state = some q) : state q = .unused := by
  simpa using List.find?_some h

theorem used_of_freeSlot (h : freeSlot state = none) (q : Fin nproc) : state q ≠ .unused := by
  simpa using find?_finRange_eq_none.mp h q

def zombieChild (parent : Fin nproc → Option (Fin nproc)) (state : Fin nproc → ProcState) (p : Fin nproc) :
    Option (Fin nproc) :=
  (List.finRange nproc).find? fun q => parent q == some p && state q == .zombie

theorem zombieChild_some (h : zombieChild parent state p = some q) :
    parent q = some p ∧ state q = .zombie := by
  simpa using List.find?_some h

end Xv6
