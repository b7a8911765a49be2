import Xv6.Lib.Search
import Xv6.Kernel.SharedPages

/-! # What creating a mutex changes

`mutex_create` takes the lowest free slot of the mutex table. It also writes the name through a
pointer that nobody has set, so its effect stays in the table only where the bytes that it writes
are there already. `shm_get` of a new name clears the table before it takes a mutex.
-/

namespace Xv6.Kernel

open Lib Vm

variable {d : PgDir} {m : Mem} {pa : Nat} {k k' : State} {name : CString} {a : Slot}

/-! ## Stores of the kernel -/

theorem memmove_eq_self {bytes : List UInt8} :
    m.memmove pa bytes = m ↔ ∀ j, j < bytes.length → m.ram (pa + j) = bytes.getD j 0 := by
  constructor
  · intro h j hj
    have hram := congrArg (fun m => m.ram (pa + j)) h
    dsimp only [Mem.memmove] at hram
    rw [if_pos ⟨by omega, by omega⟩, Nat.add_sub_cancel_left] at hram
    exact hram.symm
  intro h
  have hram : (m.memmove pa bytes).ram = m.ram := by
    funext x
    dsimp only [Mem.memmove]
    split
    · rename_i hx
      rw [← h (x - pa) (by omega), Nat.add_sub_cancel' hx.1]
    · rfl
  exact congrArg (fun ram => { m with ram := ram }) hram

theorem strncpy_length (t : CString) (n : Nat) : (strncpy t n).length = n := by
  have hle := length_chars_le n t
  unfold strncpy
  rw [List.length_append, List.length_replicate]
  omega

/-! ## `mutex_create` -/

theorem lowestFree_or_full (mutexes : Sync.Mux → Sync.Mutex) :
    (∃ i, LowestFree mutexes i) ∨ ∀ i, (mutexes i).used ≠ 0 := by
  cases hfind : Sync.freeMux mutexes with
  | none => exact .inr fun i => by simpa using find?_finRange_eq_none.mp hfind i
  | some i => exact .inl ⟨i, freeMux_eq_some.mp hfind⟩

theorem mutexCreate_full (h : ∀ i, (k.mutexes i).used ≠ 0) (a : Slot) (d : PgDir) (name : CString) :
    mutexCreate k a d name = .ok (-1, k) := by
  have hfind : Sync.freeMux k.mutexes = none :=
    find?_finRange_eq_none.mpr fun i => by simpa using h i
  unfold mutexCreate
  rw [hfind]

/-- `mutex_create` has taken the lowest free slot and changed nothing else, or all slots are in
use and it has changed nothing at all. -/
def TakesOneSlot (k : State) (a : Slot) (r : Int) (k' : State) : Prop :=
  (∃ i, LowestFree k.mutexes i ∧ r = i.val ∧ k' = k.takeMutex a i) ∨
    ((∀ i, (k.mutexes i).used ≠ 0) ∧ r = -1 ∧ k' = k)

/-- Address `0` of the caller can be written, and it holds what is written there. -/
def NameInPlace (d : PgDir) (m : Mem) (name : CString) : Prop :=
  ∃ pte, d.walk 0 = some pte ∧ (pte.present = true ∧ pte.perm.write = true) ∧
    ∀ j, j < 4 → m.ram (pte.addr + j) = (strncpy name 4).getD j 0

/-- `mutex_create` returns and touches one slot at most exactly when no slot is free, or the
name is at address `0` of the caller already. -/
theorem mutex_create_touches_slot_iff (k : State) (a : Slot) (d : PgDir) (name : CString) :
    (∃ r k', mutexCreate k a d name = .ok (r, k') ∧ TakesOneSlot k a r k') ↔
      (∀ i, (k.mutexes i).used ≠ 0) ∨ NameInPlace d k.mem name := by
  rcases lowestFree_or_full k.mutexes with ⟨i, hi⟩ | hfull
  · have hsome : ¬ ∀ i, (k.mutexes i).used ≠ 0 := fun hfull => hfull i hi.1
    rw [mutexCreate_lowest hi, or_iff_right hsome]
    constructor
    · rintro ⟨r, k', hcreate, htakes⟩
      cases hstore : storeUser d 0 (strncpy name 4) k.mem with
      | error e =>
        rw [hstore] at hcreate
        cases hcreate
      | ok mem =>
        rw [hstore] at hcreate
        cases hcreate
        obtain ⟨pte, hpte, hwritable, hmem⟩ := storeUser_zero_ok.mp hstore
        rcases htakes with ⟨j, -, -, hk⟩ | ⟨hfull, -, -⟩
        · have hsame : mem = k.mem := congrArg State.mem hk
          rw [hsame] at hmem
          have hbytes := memmove_eq_self.mp hmem.symm
          rw [strncpy_length] at hbytes
          exact ⟨pte, hpte, hwritable, hbytes⟩
        · exact absurd hfull hsome
    · rintro ⟨pte, hpte, hwritable, hbytes⟩
      have hmem : k.mem.memmove pte.addr (strncpy name 4) = k.mem := by
        rw [memmove_eq_self, strncpy_length]
        exact hbytes
      have hstore : storeUser d 0 (strncpy name 4) k.mem = .ok k.mem :=
        storeUser_zero_ok.mpr ⟨pte, hpte, hwritable, hmem.symm⟩
      refine ⟨i.val, k.takeMutex a i, ?_, .inl ⟨i, hi, rfl, rfl⟩⟩
      rw [hstore]
      rfl
  · refine iff_of_true ?_ (.inl hfull)
    exact ⟨-1, k, mutexCreate_full hfull a d name, .inr ⟨hfull, rfl, rfl⟩⟩

/-- A process calls `mutex_create("mux")`, and the first byte of its memory becomes an `m`. -/
theorem mutex_create_writes_user_memory : ∃ k pte,
    (imageMachine.procs 0).pgdir = some imageDir ∧ mutexCreate imageMachine 0 imageDir [109, 117, 120] = .ok (0, k) ∧
    imageDir.walk 0 = some pte ∧ pte.present = true ∧ imageMachine.mem.ram pte.addr = 0 ∧
    k.mem.ram pte.addr = 109 := by
  have hruns : (mutexCreate imageMachine 0 imageDir [109, 117, 120]).toOption.any fun y => y.1 = 0 ∧
      (imageDir.walk 0).any fun pte => pte.present = true ∧ imageMachine.mem.ram pte.addr = 0 ∧
        y.2.mem.ram pte.addr = 109 := by
    decide +kernel
  obtain ⟨⟨_, k⟩, hcreate, rfl, hruns⟩ := ok_of_any hruns
  obtain ⟨pte, hpte, hfacts⟩ := exists_of_any hruns
  exact ⟨k, pte, rfl, hcreate, hpte, hfacts⟩

/-! ## The mutexes under `shm_get` -/

/-- The mutex table after `shm_get` has made a region: the table is cleared, and if there is a
free block it gets mutex `0`. -/
def regionMutexes (s : SharedMemory) (ns : Int) : Sync.Mux → Sync.Mutex :=
  if ∃ i, (s.mems i).ref = 0 then Function.update Sync.mutexInit 0 (newMutex ns) else Sync.mutexInit

/-- `shm_get(name)` by `a` makes a new region. -/
def MakesRegion (k : State) (a : Slot) : Option CString → Prop
  | none => False
  | some name => ((k.procs a).sz + pgSize) % uintMod < kernBase ∧
      (shmAttach k.shared name).1 = 0 ∧ k.shared.num + 1 < shmMaxNum ∧ k.mem.free.head? ≠ some 0

theorem Recorded.mutexes {s s' : SharedMemory} {ns : Int} {mutexes' : Sync.Mux → Sync.Mutex}
    (h : Recorded s name pa ns s' mutexes') : mutexes' = regionMutexes s ns := by
  unfold regionMutexes
  rcases h with ⟨hfull, -, hmutexes⟩ | ⟨i, hi, -, hmutexes⟩
  · rw [if_neg fun hfree => hfree.elim hfull, hmutexes]
  · rw [if_pos ⟨i, hi⟩, hmutexes]

theorem shmCreate_tables {x : Option Nat} (h : shmCreate k a d name = .ok (x, k')) :
    (¬ (k.shared.num + 1 < shmMaxNum ∧ k.mem.free.head? ≠ some 0) ∧
        k'.shared = k.shared ∧ k'.mutexes = k.mutexes) ∨
      ((k.shared.num + 1 < shmMaxNum ∧ k.mem.free.head? ≠ some 0) ∧ ∃ pa s,
        Recorded k.shared name pa (k.procs a).nameSpace s k'.mutexes ∧
        k'.shared = { s with num := s.num + 1 }) := by
  rcases (shmCreate_ok h).2.2 with ⟨-, rfl, hmax⟩ | ⟨pa, m, hnum, hpage, -, hcase⟩
  · exact .inl ⟨fun hlt => absurd hlt.1 (Int.not_lt.mpr hmax), rfl, rfl⟩
  rcases hcase with ⟨hzero, -, htables⟩ | ⟨hne, -, -, s, hrecorded, hshared⟩
  · exact .inl ⟨fun hlt => hlt.2 ((shmPage_eq_zero hpage).mp hzero), htables⟩
  · exact .inr ⟨⟨hnum, fun hzero => hne ((shmPage_eq_zero hpage).mpr hzero)⟩, pa, s, hrecorded, hshared⟩

theorem shmAttach_num (s : SharedMemory) : (shmAttach s name).2.num = s.num := by
  unfold shmAttach
  split <;> rfl

theorem shmAttach_free (s : SharedMemory) (name : CString) :
    (∃ i, ((shmAttach s name).2.mems i).ref = 0) ↔ ∃ i, (s.mems i).ref = 0 := by
  unfold shmAttach
  split
  · rename_i i hi
    have hpos : 0 < (s.mems i).ref := by
      have := List.find?_some hi
      simp only [Bool.and_eq_true, decide_eq_true_eq] at this
      exact this.1
    refine exists_congr fun j => ?_
    by_cases hj : j = i
    · subst hj
      simp only [SharedMemory.update, Function.update_self]
      omega
    · simp only [SharedMemory.update, Function.update_of_ne hj]
  · rfl

/-- `shm_get` leaves the mutexes alone, or it makes a region and with it a new table. -/
theorem shmGet_mutexes {L : Layout} {name : Option CString} {r : Int} (h : shmGet L k a name = .ok (r, k')) :
    (¬ MakesRegion k a name ∧ k'.mutexes = k.mutexes) ∨
      (MakesRegion k a name ∧ k'.mutexes = regionMutexes k.shared (k.procs a).nameSpace) := by
  cases name with
  | none =>
    cases h
    exact .inl ⟨id, rfl⟩
  | some name =>
    rcases shmGet_ok h with ⟨hge, -, rfl⟩ | ⟨hlt, d, -, ⟨hfound, hmap⟩ | ⟨hnew, x, k1, hcreate, hcase⟩⟩
    · exact .inl ⟨fun hmakes => Nat.not_lt.mpr hge hmakes.1, rfl⟩
    · have hmutexes := (shmMap_ok hmap).2.1.2.1
      exact .inl ⟨fun hmakes => hfound hmakes.2.1, hmutexes⟩
    have hlast : k'.mutexes = k1.mutexes := by
      rcases hcase with ⟨-, -, rfl⟩ | ⟨pa, -, hmap⟩
      · rfl
      · exact (shmMap_ok hmap).2.1.2.1
    rw [hlast]
    rcases shmCreate_tables hcreate with ⟨hno, -, hmutexes⟩ | ⟨hroom, pa, s, hrecorded, -⟩
    · rw [shmAttach_num] at hno
      exact .inl ⟨fun hmakes => hno hmakes.2.2, hmutexes⟩
    rw [shmAttach_num] at hroom
    refine .inr ⟨⟨hlt, hnew, hroom⟩, ?_⟩
    rw [hrecorded.mutexes]
    unfold regionMutexes
    rw [if_congr (shmAttach_free k.shared name) rfl rfl]

/-- The fields of a mutex, with the `MUX_MAXNUM` places for its waiters. -/
def SameMutex (m m' : Sync.Mutex) : Prop :=
  m'.used = m.used ∧ m'.locked = m.locked ∧ m'.pid = m.pid ∧ m'.nameSpace = m.nameSpace ∧
    m'.numWaiters = m.numWaiters ∧ ∀ j, j < muxMaxNum → m'.waiters j = m.waiters j

theorem SameMutex.refl (m : Sync.Mutex) : SameMutex m m := ⟨rfl, rfl, rfl, rfl, rfl, fun _ _ => rfl⟩

theorem sameMutex_region_iff {m : Sync.Mutex} (hused : m.used ≠ 0) (s : SharedMemory) (ns : Int)
    (i : Sync.Mux) : SameMutex m (regionMutexes s ns i) ↔
      i = 0 ∧ (∃ j, (s.mems j).ref = 0) ∧ SameMutex m (newMutex ns) := by
  have hclear : ∀ j, ¬ SameMutex m (Sync.mutexInit j) := fun j hsame => hused hsame.1.symm
  unfold regionMutexes
  split
  · rename_i hfree
    by_cases hi : i = 0
    · subst hi
      rw [Function.update_self]
      exact ⟨fun hsame => ⟨rfl, hfree, hsame⟩, fun hall => hall.2.2⟩
    · rw [Function.update_of_ne hi]
      exact iff_of_false (hclear i) fun hall => hi hall.1
  · rename_i hfull
    exact iff_of_false (hclear i) fun hall => hfull hall.2.1

/-- `shm_get` leaves every mutex in use as it was exactly when it makes no region, or when no
mutex is in use but mutex `0`, unlocked and without waiters in the namespace of the caller. -/
theorem shm_get_keeps_mutexes_iff {L : Layout} {k k' : State} {a : Slot} {name : Option CString}
    {r : Int} (h : shmGet L k a name = .ok (r, k')) :
    (∀ i, (k.mutexes i).used ≠ 0 → SameMutex (k.mutexes i) (k'.mutexes i)) ↔
      ¬ MakesRegion k a name ∨ ∀ i, (k.mutexes i).used ≠ 0 → i = 0 ∧
        (∃ j, (k.shared.mems j).ref = 0) ∧
        SameMutex (k.mutexes i) (newMutex (k.procs a).nameSpace) := by
  rcases shmGet_mutexes h with ⟨hno, hmutexes⟩ | ⟨hmakes, hmutexes⟩
  · rw [hmutexes]
    exact iff_of_true (fun i _ => .refl _) (.inl hno)
  · rw [hmutexes, or_iff_right (not_not.mpr hmakes)]
    exact forall_congr' fun i => forall_congr' fun hused => sameMutex_region_iff hused _ _ i

theorem create_session : ∃ k1 k2 k3, mutexCreate imageMachine 0 imageDir [109] = .ok (0, k1) ∧
    mutexCreate k1 0 imageDir [110] = .ok (1, k2) ∧
    shmGet smallLayout k2 0 (some [97]) = .ok (4096, k3) ∧
    (k2.mutexes 1).used = 1 ∧ (k3.mutexes 1).used = 0 := by
  have hruns : (mutexCreate imageMachine 0 imageDir [109]).toOption.any fun x => x.1 = 0 ∧
      (mutexCreate x.2 0 imageDir [110]).toOption.any fun y => y.1 = 1 ∧
        (shmGet smallLayout y.2 0 (some [97])).toOption.any fun z => z.1 = 4096 ∧
          (y.2.mutexes 1).used = 1 ∧ (z.2.mutexes 1).used = 0 := by
    decide +kernel
  obtain ⟨⟨_, k1⟩, h1, rfl, hruns⟩ := ok_of_any hruns
  obtain ⟨⟨_, k2⟩, h2, rfl, hruns⟩ := ok_of_any hruns
  obtain ⟨⟨_, k3⟩, h3, rfl, hfacts⟩ := ok_of_any hruns
  exact ⟨k1, k2, k3, h1, h2, h3, hfacts⟩

/-- The theorem on `shm_get("a")`, with two mutexes in use before. -/
theorem shm_get_keeps_mutexes_session : ∃ k k', (k.mutexes 1).used = 1 ∧
    shmGet smallLayout k 0 (some [97]) = .ok (4096, k') ∧
    ((∀ i, (k.mutexes i).used ≠ 0 → SameMutex (k.mutexes i) (k'.mutexes i)) ↔
      ¬ MakesRegion k 0 (some [97]) ∨ ∀ i, (k.mutexes i).used ≠ 0 → i = 0 ∧
        (∃ j, (k.shared.mems j).ref = 0) ∧
        SameMutex (k.mutexes i) (newMutex (k.procs 0).nameSpace)) := by
  obtain ⟨_, k, k', -, -, hget, hused, -⟩ := create_session
  exact ⟨k, k', hused, hget, shm_get_keeps_mutexes_iff hget⟩

/-- The second mutex is not in use any more after `shm_get("a")`. -/
theorem shm_get_drops_mutex : ∃ k1 k2 k3, (imageMachine.procs 0).pgdir = some imageDir ∧
    mutexCreate imageMachine 0 imageDir [109] = .ok (0, k1) ∧ mutexCreate k1 0 imageDir [110] = .ok (1, k2) ∧
    shmGet smallLayout k2 0 (some [97]) = .ok (4096, k3) ∧
    (k2.mutexes 1).used ≠ 0 ∧ ¬ SameMutex (k2.mutexes 1) (k3.mutexes 1) := by
  obtain ⟨k1, k2, k3, h1, h2, h3, hused, hgone⟩ := create_session
  refine ⟨k1, k2, k3, rfl, h1, h2, h3, by rw [hused]; decide, fun hsame => ?_⟩
  have := hsame.1
  rw [hused, hgone] at this
  cases this

end Xv6.Kernel
