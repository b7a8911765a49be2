import Xv6.Kernel.ShmTable

/-! # The mutexes of shared regions

Each region should have a mutex of its own. `shm_get` clears the mutex table before it takes the
mutex of a new region, so every region gets mutex `0`, and the regions in use have different
mutexes exactly as long as no two of them are in use at a time.
-/

namespace Xv6.Kernel

open Lib Vm

variable {name : Option CString} {r : Int} {i : Fin shmMaxNum}

/-! ## The two tables under `shm_get` and `shm_rem` -/

section Tables

variable {L : Layout} {k k' : State} {a : Slot}

theorem shmGet_tables (h : k.shared.Consistent) (hget : shmGet L k a name = .ok (r, k')) :
    (¬ MakesRegion k a name ∧ k'.mutexes = k.mutexes ∧ (k'.shared = k.shared ∨
        ∃ i, k.shared.Live i ∧ k'.shared = k.shared.update i fun b => { b with ref := b.ref + 1 })) ∨
      (MakesRegion k a name ∧ ∃ n pa s,
        Recorded k.shared n pa (k.procs a).nameSpace s k'.mutexes ∧
        k'.shared = { s with num := s.num + 1 }) := by
  cases name with
  | none =>
    cases hget
    exact .inl ⟨id, rfl, .inl rfl⟩
  | some name =>
    rcases shmGet_ok hget with ⟨hge, -, rfl⟩ | ⟨hlt, d, -, ⟨hpa, hmap⟩ | ⟨hpa, x, k1, hcreate, hcase⟩⟩
    · exact .inl ⟨fun hmakes => Nat.not_lt.mpr hge hmakes.1, rfl, .inl rfl⟩
    · obtain ⟨i, hfind, -, htable⟩ := shmAttach_found hpa
      obtain ⟨-, ⟨hshared, hmutexes, -⟩, -⟩ := shmMap_ok hmap
      rw [htable] at hshared
      exact .inl ⟨fun hmakes => hpa hmakes.2.1, hmutexes, .inr ⟨i, (findShm_some hfind).1, hshared⟩⟩
    rw [(h.attach_none hpa).2] at hcreate
    have hlast : k'.shared = k1.shared ∧ k'.mutexes = k1.mutexes := by
      rcases hcase with ⟨-, -, rfl⟩ | ⟨pa, -, hmap⟩
      · exact ⟨rfl, rfl⟩
      · exact ⟨(shmMap_ok hmap).2.1.1, (shmMap_ok hmap).2.1.2.1⟩
    rw [hlast.1, hlast.2]
    rcases shmCreate_tables hcreate with ⟨hno, hshared, hmutexes⟩ | ⟨hroom, pa, s, hrecorded, hshared⟩
    · exact .inl ⟨fun hmakes => hno hmakes.2.2, hmutexes, .inl hshared⟩
    · exact .inr ⟨⟨hlt, hpa, hroom⟩, name, pa, s, hrecorded, hshared⟩

structure Deletable (m : Sync.Mutex) : Prop where
  used : m.used ≠ 0
  locked : m.locked = 0
  waiters : m.numWaiters ≤ 0

theorem mutexDelete_done {i : Sync.Mux} (h : Deletable (k.mutexes i)) :
    mutexDelete k i.val = .ok (1, { k with
      mutexes := Function.update k.mutexes i { k.mutexes i with locked := 0, used := 0 } }) := by
  unfold mutexDelete
  rw [Sync.withMux_val, Sync.deleteMux, if_neg h.used, if_neg (not_not.mpr h.locked),
    if_neg (Int.not_lt.mpr h.waiters)]

theorem shmDetach_tables {name : CString}
    (hmutex : ∀ i, k.shared.Live i → ∃ m : Sync.Mux, (k.shared.mems i).mutexIndex = m.val ∧
      Deletable (k.mutexes m)) (h : shmDetach L k name = .ok (r, k')) :
    (k'.mutexes = k.mutexes ∧ (k'.shared = k.shared ∨ ∃ i, k.shared.Live i ∧
        (k.shared.mems i).ref ≠ 1 ∧
        k'.shared = k.shared.update i fun b => { b with ref := b.ref - 1 })) ∨
      ∃ i, k.shared.Live i ∧ k'.shared = { k.shared.update i (fun b =>
        { b with ref := 0, pa := 0, name := [] }) with num := k.shared.num - 1 } := by
  unfold shmDetach at h
  split at h
  · cases h
    exact .inl ⟨rfl, .inl rfl⟩
  rename_i i hfind
  have hi := (findShm_some hfind).1
  dsimp only at h
  rw [mems_update_self] at h
  dsimp only at h
  split at h
  · rename_i hlast
    obtain ⟨mem, -, hrest⟩ := bind_eq_ok.mp h
    obtain ⟨m, hindex, hdeletable⟩ := hmutex i hi
    rw [mems_update_self, mems_update_self] at hrest
    rw [hindex, mutexDelete_done (i := m) (by exact hdeletable)] at hrest
    cases hrest
    refine .inr ⟨i, hi, ?_⟩
    simp only [SharedMemory.update, Function.update_self, Function.update_idem]
    rw [hlast]
  · cases h
    exact .inl ⟨rfl, .inr ⟨i, hi, by omega, rfl⟩⟩

end Tables

/-! ## Runs -/

/-- `shm_num` counts the blocks in use, and these have different mutexes, all in use. -/
structure Matched (k : State) : Prop where
  count : k.shared.num = (Finset.univ.filter fun i => 0 < (k.shared.mems i).ref).card
  used : ∀ i, 0 < (k.shared.mems i).ref → ∃ m : Sync.Mux,
    (k.shared.mems i).mutexIndex = m.val ∧ (k.mutexes m).used ≠ 0
  apart : ∀ i j, 0 < (k.shared.mems i).ref → 0 < (k.shared.mems j).ref → i ≠ j →
    (k.shared.mems i).mutexIndex ≠ (k.shared.mems j).mutexIndex

/-- No block is in use, or one is, with mutex `0`. -/
def Lone (k : State) : Prop :=
  ((∀ i, ¬ k.shared.Live i) ∧ k.shared.num = 0) ∨
    ∃ i, (∀ j, k.shared.Live j ↔ j = i) ∧ k.shared.num = 1 ∧ (k.shared.mems i).mutexIndex = 0 ∧
      Deletable (k.mutexes 0)

section Runs

variable {L : Layout} {k k' : State}

theorem Lone.matched (h : Lone k) : Matched k := by
  rcases h with ⟨hnone, hnum⟩ | ⟨i, hlive, hnum, hindex, hmutex⟩
  · refine ⟨?_, fun i hi => absurd hi (hnone i), fun i _ hi => absurd hi (hnone i)⟩
    have hempty : (Finset.univ.filter fun i => 0 < (k.shared.mems i).ref) = ∅ :=
      Finset.filter_eq_empty_iff.mpr fun i _ => hnone i
    rw [hnum, hempty, Finset.card_empty]
    rfl
  have hone : (Finset.univ.filter fun j => 0 < (k.shared.mems j).ref) = {i} := by
    ext j
    rw [Finset.mem_filter, Finset.mem_singleton]
    exact ⟨fun hj => (hlive j).mp hj.2, fun hj => ⟨Finset.mem_univ j, (hlive j).mpr hj⟩⟩
  refine ⟨?_, fun j hj => ?_, fun j l hj hl hne => ?_⟩
  · rw [hnum, hone, Finset.card_singleton]
    rfl
  · rw [(hlive j).mp hj]
    exact ⟨0, hindex, hmutex.used⟩
  · exact absurd (((hlive j).mp hj).trans ((hlive l).mp hl).symm) hne

/-- A mutex for every block in use that `shm_rem` can delete. -/
theorem Lone.deletable (h : Lone k) (i : Fin shmMaxNum) (hi : k.shared.Live i) :
    ∃ m : Sync.Mux, (k.shared.mems i).mutexIndex = m.val ∧ Deletable (k.mutexes m) := by
  rcases h with ⟨hnone, -⟩ | ⟨j, hlive, -, hindex, hmutex⟩
  · exact absurd hi (hnone i)
  · rw [(hlive i).mp hi]
    exact ⟨0, hindex, hmutex⟩

theorem Lone.congr (h : Lone k) (hlive : ∀ i, k'.shared.Live i ↔ k.shared.Live i)
    (hindex : ∀ i, (k'.shared.mems i).mutexIndex = (k.shared.mems i).mutexIndex)
    (hnum : k'.shared.num = k.shared.num) (hmutexes : k'.mutexes = k.mutexes) : Lone k' := by
  unfold Lone
  simp only [hlive, hindex, hnum, hmutexes]
  exact h

theorem Lone.count (h : Lone k) (hi : k.shared.Live i) {n : Int} (hn : 0 < n)
    (hshared : k'.shared = k.shared.update i fun b => { b with ref := n })
    (hmutexes : k'.mutexes = k.mutexes) : Lone k' := by
  refine h.congr (fun j => ?_) (fun j => ?_) (by rw [hshared]; rfl) hmutexes
  · rw [hshared]
    unfold SharedMemory.Live at *
    by_cases hj : j = i
    · rw [hj, mems_update_self]
      exact iff_of_true hn hi
    · rw [mems_update_of_ne _ _ hj]
  · rw [hshared]
    by_cases hj : j = i
    · rw [hj, mems_update_self]
    · rw [mems_update_of_ne _ _ hj]

theorem Lone.clear (h : Lone k) (hi : k.shared.Live i) (hshared : k'.shared = { k.shared.update i (fun b =>
      { b with ref := 0, pa := 0, name := [] }) with num := k.shared.num - 1 }) : Lone k' := by
  rcases h with ⟨hnone, -⟩ | ⟨j, hlive, hnum, -, -⟩
  · exact absurd hi (hnone i)
  obtain rfl := (hlive i).mp hi
  refine .inl ⟨fun l hl => ?_, by rw [hshared]; dsimp only; omega⟩
  have hother : l ≠ i := by
    rintro rfl
    rw [hshared] at hl
    unfold SharedMemory.Live at hl
    rw [mems_update_self] at hl
    exact absurd hl (Int.lt_irrefl 0)
  refine hother ((hlive l).mp ?_)
  rw [hshared] at hl
  unfold SharedMemory.Live at hl ⊢
  rwa [mems_update_of_ne _ _ hother] at hl

theorem Lone.enter (hnone : ∀ i, ¬ k.shared.Live i) (hnum : k.shared.num = 0) {n : CString} {pa : Nat}
    {ns : Int}
    (hshared : k'.shared = { k.shared.update i (fun _ => ⟨n, pa, 1, 0⟩) with num := k.shared.num + 1 })
    (hmutexes : k'.mutexes = Function.update Sync.mutexInit 0 (newMutex ns)) : Lone k' := by
  refine .inr ⟨i, fun j => ?_, by rw [hshared]; dsimp only; omega, ?_, ?_⟩
  · rw [hshared]
    unfold SharedMemory.Live at *
    by_cases hj : j = i
    · rw [hj, mems_update_self]
      exact iff_of_true Int.one_pos rfl
    · rw [mems_update_of_ne _ _ hj]
      exact iff_of_false (hnone j) hj
  · rw [hshared, mems_update_self]
  · rw [hmutexes, Function.update_self]
    exact ⟨Nat.one_ne_zero, rfl, Int.le_refl 0⟩

/-- A second region shares mutex `0` with the first. -/
theorem Lone.enter_again {j : Fin shmMaxNum} (hi : k.shared.Live i)
    (hindex : (k.shared.mems i).mutexIndex = 0) (hj : (k.shared.mems j).ref = 0) {n : CString} {pa : Nat}
    {num : Int} (hshared : k'.shared = { k.shared.update j (fun _ => ⟨n, pa, 1, 0⟩) with num := num }) :
    ¬ Matched k' := by
  have hne : i ≠ j := by
    rintro rfl
    unfold SharedMemory.Live at hi
    omega
  have hnew : k'.shared.mems j = ⟨n, pa, 1, 0⟩ := by
    rw [hshared]
    rw [mems_update_self]
  have hold : k'.shared.mems i = k.shared.mems i := by
    rw [hshared]
    rw [mems_update_of_ne _ _ hne]
  intro hmatched
  refine hmatched.apart i j (by rw [hold]; exact hi) (by rw [hnew]; exact Int.one_pos) hne ?_
  rw [hold, hnew]
  exact hindex

def RegionStep (L : Layout) (k : State) (e : Event) (k' : State) : Prop :=
  ((∃ name, e.call = .shmGet name) ∨ ∃ name, e.call = .shmRem name) ∧ Step L k e k'

/-- A call of `shm_get` that makes a region makes the only one. -/
def MakesAlone (k : State) (e : Event) : Prop :=
  ∀ name, e.call = .shmGet name → MakesRegion k e.slot name → ∀ i, ¬ k.shared.Live i

theorem regionStep_settled {e : Event} (h : Settled k) (hstep : RegionStep L k e k') : Settled k' := by
  obtain ⟨hcall, hstep⟩ := hstep
  refine step_settled h ?_ hstep
  rcases hcall with ⟨name, hcall⟩ | ⟨name, hcall⟩
  · rw [hcall]
    trivial
  · rw [hcall]
    trivial

theorem Lone.not_full (h : Lone k) (hnonneg : ∀ i, 0 ≤ (k.shared.mems i).ref) :
    ¬ ∀ i, (k.shared.mems i).ref ≠ 0 := by
  intro hfull
  have hall : ∀ i, k.shared.Live i := fun i => lt_of_le_of_ne (hnonneg i) (Ne.symm (hfull i))
  rcases h with ⟨hnone, -⟩ | ⟨i, hlive, -⟩
  · exact hnone 0 (hall 0)
  · have h0 := (hlive 0).mp (hall 0)
    have h1 := (hlive 1).mp (hall 1)
    exact absurd (h0.trans h1.symm) (by decide)

/-- `shm_get` leads to one region at most if it makes the only one, and otherwise two regions
share a mutex. -/
theorem shmGet_lone {a : Slot} (h : Lone k) (hs : Settled k) (hget : shmGet L k a name = .ok (r, k')) :
    ((MakesRegion k a name → ∀ i, ¬ k.shared.Live i) → Lone k') ∧
      (¬ (MakesRegion k a name → ∀ i, ¬ k.shared.Live i) → ¬ Matched k') := by
  rcases shmGet_tables hs.table hget with ⟨hno, hmutexes, hcase⟩ | ⟨hmakes, n, pa, s, hrecorded, hshared⟩
  · refine ⟨fun _ => ?_, fun hbad => absurd (fun hmakes => absurd hmakes hno) hbad⟩
    rcases hcase with hshared | ⟨i, hi, hshared⟩
    · exact h.congr (fun _ => by rw [hshared]) (fun _ => by rw [hshared]) (by rw [hshared]) hmutexes
    · refine h.count hi (n := (k.shared.mems i).ref + 1) ?_ hshared hmutexes
      unfold SharedMemory.Live at hi
      omega
  · rcases hrecorded with ⟨hfull, -⟩ | ⟨j, hj, hrecord, hmutexes⟩
    · exact absurd hfull (h.not_full hs.table.nonneg)
    rw [hrecord] at hshared
    refine ⟨fun halone => ?_, fun hbad => ?_⟩
    · rcases h with ⟨hnone, hnum⟩ | ⟨i, hlive, -⟩
      · exact Lone.enter hnone hnum hshared hmutexes
      · exact absurd ((hlive i).mpr rfl) (halone hmakes i)
    · rcases h with ⟨hnone, -⟩ | ⟨i, hlive, -, hindex, -⟩
      · exact absurd (fun _ => hnone) hbad
      · exact Lone.enter_again ((hlive i).mpr rfl) hindex hj hshared

theorem shmRem_lone {a : Slot} (h : Lone k) (hrem : shmRem L k a name = .ok (r, k')) : Lone k' := by
  cases name with
  | none =>
    cases hrem
    exact h
  | some name =>
    rcases shmRem_ok hrem with ⟨-, -, rfl⟩ | ⟨i, d, -, -, -, -, hdetach⟩
    · exact h
    have hk : Lone (k.update a fun p => p.removed d i) := h
    rcases shmDetach_tables hk.deletable hdetach with ⟨hmutexes, hshared | ⟨j, hj, hmore, hshared⟩⟩ |
      ⟨j, hj, hshared⟩
    · exact hk.congr (fun _ => by rw [hshared]) (fun _ => by rw [hshared]) (by rw [hshared]) hmutexes
    · refine hk.count hj (n := ((k.shared.mems j).ref - 1)) ?_ hshared hmutexes
      have hmore' : (k.shared.mems j).ref ≠ 1 := hmore
      have hj' : 0 < (k.shared.mems j).ref := hj
      omega
    · exact hk.clear hj hshared

theorem regionStep_lone {e : Event} (h : Lone k) (hs : Settled k) (hstep : RegionStep L k e k') :
    (MakesAlone k e → Lone k') ∧ (¬ MakesAlone k e → ¬ Matched k') := by
  obtain ⟨a, c, r⟩ := e
  obtain ⟨hcall, -, hdone⟩ := hstep
  rcases hcall with ⟨name, rfl⟩ | ⟨name, rfl⟩
  · cases call_did hdone with
    | shmGet hget =>
      obtain ⟨halone, hbad⟩ := shmGet_lone h hs hget
      have hiff : MakesAlone k ⟨a, .shmGet name, r⟩ ↔
          (MakesRegion k a name → ∀ i, ¬ k.shared.Live i) := by
        refine ⟨fun hall => hall name rfl, fun hone n hn => ?_⟩
        cases hn
        exact hone
      rw [hiff]
      exact ⟨halone, hbad⟩
  · cases call_did hdone with
    | shmRem hrem =>
      exact ⟨fun _ => shmRem_lone h hrem, fun hbad => absurd (fun _ hn => (nomatch hn)) hbad⟩

end Runs

/-- From a fresh machine, along a sequence of calls of `shm_get` and `shm_rem`, `shm_num` is the
number of the blocks in use and these have different mutexes in use exactly when every new region
is the only one. -/
theorem region_mutexes_iff {L : Layout} {k0 : State} (h : Fresh k0) (hnum : k0.shared.num = 0) :
    Matched k0 ∧ ∀ es k, (Run (fun s e t => RegionStep L s e t ∧ Matched t) k0 es k ↔
        Run (Guarded (RegionStep L) MakesAlone) k0 es k) ∧
      (Run (Guarded (RegionStep L) MakesAlone) k0 es k → Matched k) := by
  have hlone : Lone k0 := by
    refine .inl ⟨fun i hi => ?_, hnum⟩
    unfold SharedMemory.Live at hi
    rw [(h.idle i).1] at hi
    exact absurd hi (by decide)
  have hkeeps : ∀ s e t, Settled s ∧ Lone s → MakesAlone s e → RegionStep L s e t →
      Settled t ∧ Lone t := by
    intro s e t hs halone hstep
    exact ⟨regionStep_settled hs.1 hstep, (regionStep_lone hs.2 hs.1 hstep).1 halone⟩
  refine ⟨hlone.matched, fun es k => ⟨?_, fun hrun => ?_⟩⟩
  · refine Run.guarded_iff (fun s => Settled s ∧ Lone s) (fun s e t hs hstep => ?_) hkeeps
      ⟨h.settled, hlone⟩
    obtain ⟨halone, hbad⟩ := regionStep_lone hs.2 hs.1 hstep
    refine ⟨fun hmatched => ?_, fun hok => (halone hok).matched⟩
    by_contra hno
    exact hbad hno hmatched
  · exact (hrun.invariant_of_guarded hkeeps ⟨h.settled, hlone⟩).2.matched

/-- `shm_rem`, or `shm_get` with no region. -/
def calm (k : State) (e : Event) : Bool :=
  match e.call with
  | .shmRem _ => true
  | .shmGet _ => decide (∀ i, (k.shared.mems i).ref ≤ 0)
  | _ => false

theorem calm_step {L : Layout} {k k' : State} {e : Event} (h : calm k e = true) (hstep : Step L k e k') :
    Guarded (RegionStep L) MakesAlone k e k' := by
  obtain ⟨a, c, r⟩ := e
  cases c with
  | shmRem name => exact And.intro (fun _ hn => by cases hn) ⟨.inr ⟨name, rfl⟩, hstep⟩
  | shmGet name =>
    exact ⟨fun _ _ _ i => Int.not_lt.mpr (of_decide_eq_true h i), .inl ⟨name, rfl⟩, hstep⟩
  | _ => cases h

/-- A region is made and removed, and then there is another. -/
theorem region_mutexes_again : ∃ k,
    Run (Guarded (RegionStep smallLayout) MakesAlone) imageMachine
      [⟨0, .shmGet (some [97]), some 4096⟩, ⟨0, .shmRem (some [97]), some 0⟩,
        ⟨0, .shmGet (some [98]), some 4096⟩] k ∧
      (k.shared.mems 0).name = [98] ∧ (k.shared.mems 0).ref = 1 ∧ Matched k := by
  refine Exists.imp (fun k h => ⟨h.1, h.2.1, h.2.2, ((region_mutexes_iff imageMachine_fresh rfl).2 _ k).2 h.1⟩)
    (Run.found (f := fun k e => if calm k e then next smallLayout k e else none) (fun hs => ?_)
      (fun k => (k.shared.mems 0).name = [98] ∧ (k.shared.mems 0).ref = 1) (by decide +kernel) fun _ _ h => h)
  obtain ⟨hcalm, hnext⟩ := Option.ite_none_right_eq_some.mp hs
  exact calm_step hcalm (step_of_next hnext)

/-- After `shm_get("a")` and `shm_get("b")` both regions have mutex `0`. -/
theorem regions_share_mutex : ∃ k,
    Run (RegionStep smallLayout) imageMachine
      [⟨0, .shmGet (some [97]), some 4096⟩, ⟨0, .shmGet (some [98]), some 8192⟩] k ∧
    0 < (k.shared.mems 0).ref ∧ 0 < (k.shared.mems 1).ref ∧
    (k.shared.mems 0).mutexIndex = (k.shared.mems 1).mutexIndex ∧ ¬ Matched k := by
  have hruns : (execute (next smallLayout) imageMachine
      [⟨0, .shmGet (some [97]), some 4096⟩, ⟨0, .shmGet (some [98]), some 8192⟩]).any fun k =>
        0 < (k.shared.mems 0).ref ∧ 0 < (k.shared.mems 1).ref ∧
          (k.shared.mems 0).mutexIndex = (k.shared.mems 1).mutexIndex := by
    decide +kernel
  obtain ⟨k, hexecute, hfirst, hsecond, hsame⟩ := exists_of_any hruns
  have hrun : Run (RegionStep smallLayout) imageMachine
      [⟨0, .shmGet (some [97]), some 4096⟩, ⟨0, .shmGet (some [98]), some 8192⟩] k := by
    obtain ⟨k1, hstep, hrest⟩ := (Run.of_execute step_of_next hexecute).cons_inv
    obtain ⟨k2, hstep', hrest'⟩ := hrest.cons_inv
    cases hrest'
    exact .cons ⟨.inl ⟨_, rfl⟩, hstep⟩ (.single ⟨.inl ⟨_, rfl⟩, hstep'⟩)
  exact ⟨k, hrun, hfirst, hsecond, hsame,
    fun hmatched => hmatched.apart 0 1 hfirst hsecond (by decide) hsame⟩

end Xv6.Kernel
