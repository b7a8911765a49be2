import Mathlib.Algebra.BigOperators.Group.Multiset.Basic
import Mathlib.Data.Multiset.AddSub
import Xv6.Lib.Count
import Xv6.Kernel.ShmAtomicity
import Xv6.Kernel.RegionMutexes

/-! # `shm_rem` against a ledger of mappings

The ledger of a process has the name and the address of every mapping that `shm_get` has returned
and `shm_rem` has not removed. `shm_rem` looks names up in the process table, where a removed mapping
keeps its name, and where the size of the process stands for the address. The table and the ledger
agree along runs in which sizes are page aligned and no process table is full, and where they agree
`shm_rem` does what the ledger says exactly when the first entry of the name has not been removed
before and the shared region can be given up.
-/

namespace Xv6.Kernel

open Lib Vm

variable {p : Proc} {i : Fin shmMaxNum} {r : Int} {a : Slot}

/-! ## Ledgers -/

abbrev Mappings := Multiset (CString × Nat)

def ShmMapping.live (x : ShmMapping) : Mappings := if x.va = 0 then 0 else {(x.name, x.va)}

def Proc.records (p : Proc) : Mappings := ∑ i, (p.shm i).live

/-- Every process has in its table what its ledger has. -/
def InBooks (k : State) (led : Slot → Mappings) : Prop :=
  ∀ q, (k.procs q).state ≠ .unused → led q = (k.procs q).records

/-! ## The conditions -/

section Table

variable {L : Layout} {k k' : State} {a : Slot} {name : CString} {r : Int}

end Table

/-! ## Runs -/

section Runs

variable {L : Layout} {k k' : State} {led led' : Slot → Mappings}

theorem InBooks.change (h : InBooks k led) (hbut : SameBut a k k') (hled : ∀ q, q ≠ a → led' q = led q)
    (hat : led' a = (k'.procs a).records) : InBooks k' led' := by
  intro q hused
  by_cases hq : q = a
  · rw [hq, hat]
  · rw [hled q hq, hbut q hq]
    rw [hbut q hq] at hused
    exact h q hused

theorem InBooks.fork (h : InBooks k led) (hrun : (k.procs a).CanRun) (hfork : fork L k a = .ok (r, k')) :
    InBooks k' fun q =>
      if (k.procs q).state = .unused ∧ (k'.procs q).state ≠ .unused then led a else led q := by
  intro q hused
  dsimp only
  rcases fork_cases hrun hfork with ⟨-, hsame, -⟩ | ⟨np, d, kstack, m, hunused, -, -, hbut, hcase⟩
  · have hkept := hsame.spaces.procs q
    have hq : (k.procs q).state ≠ .unused := fun hc => hused (hkept.unused.mpr hc)
    rw [if_neg fun hc => hq hc.1, h q hq]
    unfold Proc.records
    rw [hkept.shm hq]
  by_cases hq : q = np
  · subst hq
    rw [if_pos ⟨hunused, hused⟩, h a hrun.used]
    rcases hcase with ⟨m1, -, -, -, hstate, -⟩ | ⟨d', x, -, -, hmoved, -⟩
    · exact absurd hstate hused
    · unfold Proc.records
      rw [hmoved.child.2.2.2.2]
  · rw [hbut q hq] at hused ⊢
    rw [if_neg fun hc => hused hc.1]
    exact h q hused

end Runs

end Xv6.Kernel
