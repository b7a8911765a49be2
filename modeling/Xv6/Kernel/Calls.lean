import Xv6.Lib.Except
import Xv6.Kernel.Model

/-! # What the calls do when they come back

One inversion lemma for each call that changes an address space: the parts it is made of and
the fields of the state that it leaves behind.
-/

namespace Xv6.Kernel

open Lib Vm

variable {a : Slot} {L : Layout} {k k' : State} {r : Int} {name : CString} {d : PgDir} {pa : Nat}

@[simp] theorem update_self (k : State) (a : Slot) (f : Proc → Proc) :
    (k.update a f).procs a = f (k.procs a) := Function.update_self ..

theorem update_of_ne (k : State) {b : Slot} (f : Proc → Proc) (h : b ≠ a) :
    (k.update a f).procs b = k.procs b := Function.update_of_ne h ..

/-- The processes other than `a` are as before. -/
def SameBut (a : Slot) (k k' : State) : Prop := ∀ b, b ≠ a → k'.procs b = k.procs b

/-! ## `growproc` -/

theorem growproc_ok {n : Int} (h : growproc L k a n = .ok (r, k')) : ∃ d sz d', (k.procs a).pgdir = some d ∧
      resize L d (k.procs a).sz n k.mem = .ok (sz, d', k'.mem) ∧
      ((n ≠ 0 ∧ sz = 0 ∧ r = -1 ∧ k'.procs a = { k.procs a with pgdir := some d' }) ∨
        (¬ (n ≠ 0 ∧ sz = 0) ∧ r = 0 ∧ k'.procs a = { k.procs a with pgdir := some d', sz := sz })) ∧
      SameBut a k k' ∧ k'.shared = k.shared ∧ k'.fs = k.fs := by
  unfold growproc at h
  split at h
  · cases h
  rename_i d hd
  obtain ⟨⟨sz, d', mem⟩, hvm, hrest⟩ := bind_eq_ok.mp h
  dsimp only at hrest
  split at hrest
  · rename_i hfail
    cases hrest
    refine ⟨d, sz, d', hd, hvm, .inl ⟨hfail.1, hfail.2, rfl, ?_⟩, fun b hb => ?_, rfl, rfl⟩
    · simp only [State.update, Function.update_self]
    · simp only [State.update, Function.update_of_ne hb]
  · rename_i hok
    cases hrest
    refine ⟨d, sz, d', hd, hvm, .inr ⟨hok, rfl, ?_⟩, fun b hb => ?_, rfl, rfl⟩
    · simp only [State.update, Function.update_self]
    · simp only [State.update, Function.update_of_ne hb]

/-! ## `shm_rem` -/

/-- The entry of the process table that `shm_rem(name)` removes. -/
def mappingOf (p : Proc) (name : CString) : Option (Fin shmMaxNum) :=
  (List.finRange shmMaxNum).find? fun i => strncmp name (p.shm i).name shmNameLen == 0

/-- The process after `shm_rem` has removed entry `i`. -/
def Proc.removed (p : Proc) (d : PgDir) (i : Fin shmMaxNum) : Proc :=
  { p with
    pgdir := some (d.set (p.shm i).va .zero)
    shm := Function.update p.shm i { p.shm i with va := 0 }
    sz := szLess p.sz }

theorem mutexDelete_ok {muxid : Int} (h : mutexDelete k muxid = .ok (r, k')) :
    ∃ mutexes, k' = { k with mutexes := mutexes } := by
  unfold mutexDelete at h
  split at h
  · cases h
    exact ⟨_, rfl⟩
  · cases h

/-- The last loop of `shm_rem`: no block has the name, or one loses a reference, or its
last one and its page. -/
theorem shmDetach_ok (h : shmDetach L k name = .ok (r, k')) : k'.procs = k.procs ∧ k'.fs = k.fs ∧
      ((findShm k.shared name = none ∧ r = 0 ∧ k'.mem = k.mem ∧ k'.shared = k.shared) ∨
        ∃ i, findShm k.shared name = some i ∧
          (((k.shared.mems i).ref ≠ 1 ∧ r = 0 ∧ k'.mem = k.mem ∧
              k'.shared.mems = (k.shared.update i fun b => { b with ref := b.ref - 1 }).mems) ∨
            ((k.shared.mems i).ref = 1 ∧ kfree L k.mem (k.shared.mems i).pa = .ok k'.mem ∧
              k'.shared.mems =
                (k.shared.update i fun b => { b with ref := 0, pa := 0, name := [] }).mems))) := by
  unfold shmDetach at h
  split at h
  · rename_i hnone
    cases h
    exact ⟨rfl, rfl, .inl ⟨hnone, rfl, rfl, rfl⟩⟩
  rename_i i hi
  dsimp only at h
  have href : ((k.shared.update i fun b => { b with ref := b.ref - 1 }).mems i).ref =
      (k.shared.mems i).ref - 1 := by
    simp [SharedMemory.update]
  have hpa : ((k.shared.update i fun b => { b with ref := b.ref - 1 }).mems i).pa =
      (k.shared.mems i).pa := by
    simp [SharedMemory.update]
  split at h
  · rename_i hlast
    obtain ⟨mem, hfree, hrest⟩ := bind_eq_ok.mp h
    obtain ⟨⟨r1, k1⟩, hdelete, hret⟩ := bind_eq_ok.mp hrest
    obtain ⟨mutexes, rfl⟩ := mutexDelete_ok hdelete
    rw [hpa] at hfree
    rw [href] at hlast
    split at hret
    all_goals
      cases hret
      refine ⟨rfl, rfl, .inr ⟨i, hi, .inr ⟨by omega, hfree, ?_⟩⟩⟩
      simp only [SharedMemory.update, Function.update_self, Function.update_idem, hlast]
  · rename_i hmore
    rw [href] at hmore
    cases h
    exact ⟨rfl, rfl, .inr ⟨i, hi, .inl ⟨by omega, rfl, rfl, rfl⟩⟩⟩

theorem shmRem_ok (h : shmRem L k a (some name) = .ok (r, k')) :
    (mappingOf (k.procs a) name = none ∧ r = -1 ∧ k' = k) ∨
      ∃ i d, mappingOf (k.procs a) name = some i ∧ (k.procs a).pgdir = some d ∧
        k'.procs a = (k.procs a).removed d i ∧ SameBut a k k' ∧
        shmDetach L (k.update a fun p => p.removed d i) name = .ok (r, k') := by
  simp only [shmRem] at h
  split at h
  · rename_i hnone
    cases h
    exact .inl ⟨hnone, rfl, rfl⟩
  rename_i i hi
  split at h
  · cases h
  rename_i d hd
  obtain ⟨hprocs, _⟩ := shmDetach_ok h
  refine .inr ⟨i, d, hi, hd, ?_, fun b hb => ?_, h⟩
  · rw [hprocs]
    exact update_self ..
  · rw [hprocs]
    exact update_of_ne k _ hb

/-! ## `shm_get` -/

/-- Address `0` of the caller can be written. -/
def Writable (d : PgDir) : Prop :=
  ∃ pte, d.walk 0 = some pte ∧ (pte.present = true ∧ pte.perm.write = true)

theorem storeUser_zero_ok {bytes : List UInt8} {m m' : Mem} :
    storeUser d 0 bytes m = .ok m' ↔ ∃ pte, d.walk 0 = some pte ∧
      (pte.present = true ∧ pte.perm.write = true) ∧ m' = m.memmove pte.addr bytes := by
  unfold storeUser
  cases d.walk 0 with
  | none =>
    refine iff_of_false nofun ?_
    rintro ⟨pte, hpte, _⟩
    cases hpte
  | some pte =>
    dsimp only
    rw [Nat.zero_mod, Nat.add_zero]
    constructor
    · intro h
      split at h
      · cases h
        exact ⟨pte, rfl, ‹_›, rfl⟩
      · cases h
    · rintro ⟨_, hpte, hwritable, rfl⟩
      cases hpte
      rw [if_pos hwritable]

/-- The state after process `a` has got mutex `i`. -/
def State.takeMutex (k : State) (a : Slot) (i : Sync.Mux) : State :=
  { k with
    mutexes := Function.update k.mutexes i
      ((k.mutexes i).create (k.procs a).nameSpace) }

def LowestFree (mutexes : Sync.Mux → Sync.Mutex) (i : Sync.Mux) : Prop :=
  (mutexes i).used = 0 ∧ ∀ j, j < i → (mutexes j).used ≠ 0

theorem freeMux_eq_some {mutexes : Sync.Mux → Sync.Mutex} {i : Sync.Mux} :
    Sync.freeMux mutexes = some i ↔ LowestFree mutexes i := by
  unfold Sync.freeMux LowestFree
  rw [find?_finRange_eq_some]
  simp

theorem mutexCreate_lowest {i : Sync.Mux} (h : LowestFree k.mutexes i) (a : Slot) (d : PgDir)
    (name : CString) : mutexCreate k a d name = (storeUser d 0 (strncpy name 4) k.mem).map fun mem =>
      ((i.val : Int), { k.takeMutex a i with mem := mem }) := by
  unfold mutexCreate
  rw [freeMux_eq_some.mpr h]
  cases storeUser d 0 (strncpy name 4) k.mem with
  | error e => rfl
  | ok mem => rfl

def newMutex (ns : Int) : Sync.Mutex := (Sync.mutexInit 0).create ns

theorem lowestFree_mutexInit : LowestFree Sync.mutexInit 0 := ⟨rfl, fun j hj => absurd hj (Fin.not_lt_zero j)⟩

/-- The two tables after a new page is recorded: no block is free, or one gets the page and
mutex `0`. -/
def Recorded (s : SharedMemory) (name : CString) (pa : Nat) (ns : Int) (s' : SharedMemory)
    (mutexes' : Sync.Mux → Sync.Mutex) : Prop :=
  ((∀ i, (s.mems i).ref ≠ 0) ∧ s' = s ∧ mutexes' = Sync.mutexInit) ∨
    ∃ i, (s.mems i).ref = 0 ∧ s' = (s.update i fun _ => ⟨name.take shmNameLen, pa, 1, 0⟩) ∧
      mutexes' = Function.update Sync.mutexInit 0 (newMutex ns)

theorem Recorded.num {s s' : SharedMemory} {ns : Int} {mutexes' : Sync.Mux → Sync.Mutex}
    (h : Recorded s name pa ns s' mutexes') : s'.num = s.num := by
  rcases h with ⟨-, rfl, -⟩ | ⟨i, -, rfl, -⟩
  · rfl
  · rfl

/-- On a cleared table `mutex_create` finds mutex `0`, and it needs address `0` of the caller. -/
theorem shmRecord_ok (hclear : k.mutexes = Sync.mutexInit) : shmRecord k a d name pa = .ok k' ↔
    ((∀ i, (k.shared.mems i).ref ≠ 0) ∧ k' = k) ∨ ∃ i pte,
      ((List.finRange shmMaxNum).find? fun i => (k.shared.mems i).ref == 0) = some i ∧
      d.walk 0 = some pte ∧ (pte.present = true ∧ pte.perm.write = true) ∧
      k' = { k with
        shared := k.shared.update i fun _ => ⟨name.take shmNameLen, pa, 1, 0⟩
        mutexes := Function.update Sync.mutexInit 0 (newMutex (k.procs a).nameSpace)
        mem := k.mem.memmove pte.addr (strncpy [115, 104, 109, 95, 109, 117, 116, 101, 120] 4) } := by
  unfold shmRecord
  cases hfind : (List.finRange shmMaxNum).find? fun i => (k.shared.mems i).ref == 0 with
  | none =>
    have hfull : ∀ i, (k.shared.mems i).ref ≠ 0 := fun i => by
      simpa using find?_finRange_eq_none.mp hfind i
    simp only [hfull, ne_eq, not_false_eq_true, implies_true, true_and, reduceCtorEq, false_and,
      exists_false, or_false, Except.ok.injEq]
    exact eq_comm
  | some i =>
    have hsome : ¬ ∀ i, (k.shared.mems i).ref ≠ 0 := fun hfull =>
      hfull i (by simpa using List.find?_some hfind)
    dsimp only
    rw [mutexCreate_lowest (i := 0) (by dsimp only; rw [hclear]; exact lowestFree_mutexInit)]
    dsimp only [State.takeMutex]
    simp only [hsome, false_and, false_or, Option.some.injEq]
    constructor
    · intro h
      cases hstore : storeUser d 0 (strncpy [115, 104, 109, 95, 109, 117, 116, 101, 120] 4) k.mem with
      | error e =>
        rw [hstore] at h
        cases h
      | ok mem =>
        obtain ⟨pte, hpte, hwritable, rfl⟩ := storeUser_zero_ok.mp hstore
        rw [hstore] at h
        cases h
        refine ⟨i, pte, rfl, hpte, hwritable, ?_⟩
        simp only [SharedMemory.update, Function.update_self, Function.update_idem, hclear]
        rfl
    · rintro ⟨_, pte, rfl, hpte, hwritable, rfl⟩
      rw [storeUser_zero_ok.mpr ⟨pte, hpte, hwritable, rfl⟩]
      simp only [Except.map, ok_bind, SharedMemory.update, Function.update_self, Function.update_idem,
        hclear]
      rfl

theorem shmPage_ok {m m' : Mem} (h : shmPage d m = .ok (pa, m')) :
    m.free = pa :: m'.free ∨ (m.free = [] ∧ m'.free = []) := by
  unfold shmPage at h
  unfold kalloc at h
  cases hfree : m.free with
  | nil =>
    rw [hfree] at h
    obtain ⟨m1, hstore, hret⟩ := bind_eq_ok.mp h
    cases hret
    obtain ⟨pte, -, -, rfl⟩ := storeUser_zero_ok.mp hstore
    exact .inr ⟨rfl, hfree⟩
  | cons pg free =>
    rw [hfree] at h
    cases h
    exact .inl rfl

theorem shmPage_eq_zero {m m' : Mem} (h : shmPage d m = .ok (pa, m')) : pa = 0 ↔ m.free.head? = some 0 := by
  unfold shmPage at h
  unfold kalloc at h
  cases hfree : m.free with
  | nil =>
    rw [hfree] at h
    obtain ⟨m1, -, hret⟩ := bind_eq_ok.mp h
    cases hret
    exact iff_of_false (by decide) nofun
  | cons pg free =>
    rw [hfree] at h
    cases h
    rw [List.head?_cons, Option.some.injEq]

/-- The branch of `shm_get` for a new name: no room, or a page that is recorded and counted. -/
theorem shmCreate_ok {r : Option Nat} (h : shmCreate k a d name = .ok (r, k')) :
    k'.procs = k.procs ∧ k'.fs = k.fs ∧
      ((r = none ∧ k' = k ∧ shmMaxNum ≤ k.shared.num + 1) ∨
        ∃ pa m, k.shared.num + 1 < shmMaxNum ∧ shmPage d k.mem = .ok (pa, m) ∧
          k'.mem.free = m.free ∧
          ((pa = 0 ∧ r = none ∧ k'.shared = k.shared ∧ k'.mutexes = k.mutexes) ∨
            (pa ≠ 0 ∧ r = some pa ∧ ((∃ i, (k.shared.mems i).ref = 0) → Writable d) ∧ ∃ s,
              Recorded k.shared name pa (k.procs a).nameSpace s k'.mutexes ∧
              k'.shared = { s with num := s.num + 1 }))) := by
  unfold shmCreate at h
  split at h
  · rename_i hmax
    cases h
    exact ⟨rfl, rfl, .inl ⟨rfl, rfl, hmax⟩⟩
  rename_i hnum
  obtain ⟨⟨pa, m⟩, hpage, hrest⟩ := bind_eq_ok.mp h
  dsimp only at hrest
  split at hrest
  · rename_i hz
    cases hrest
    exact ⟨rfl, rfl, .inr ⟨pa, m, Int.not_le.mp hnum, hpage, rfl, .inl ⟨hz, rfl, rfl, rfl⟩⟩⟩
  rename_i hne
  obtain ⟨k1, hrecord, hret⟩ := bind_eq_ok.mp hrest
  cases hret
  rcases (shmRecord_ok rfl).mp hrecord with ⟨hfull, rfl⟩ | ⟨i, pte, hfind, hpte, hwritable, rfl⟩
  · exact ⟨rfl, rfl, .inr ⟨pa, m, Int.not_le.mp hnum, hpage, rfl, .inr ⟨hne, rfl,
      fun hfree => hfree.elim fun i hi => absurd hi (hfull i), _, .inl ⟨hfull, rfl, rfl⟩, rfl⟩⟩⟩
  · exact ⟨rfl, rfl, .inr ⟨pa, m, Int.not_le.mp hnum, hpage, rfl, .inr ⟨hne, rfl,
      fun _ => ⟨pte, hpte, hwritable⟩, _,
      .inr ⟨i, by simpa using List.find?_some hfind, rfl, rfl⟩, rfl⟩⟩⟩

/-- The end of `shm_get`: the page is mapped at the top, or it is freed for want of a page
table. -/
theorem shmMap_ok (h : shmMap L k a d name pa = .ok (r, k')) :
    SameBut a k k' ∧ (k'.shared = k.shared ∧ k'.mutexes = k.mutexes ∧ k'.fs = k.fs) ∧
      ∃ ok d' m, mappages d (pgRoundUp (k.procs a).sz) pgSize pa .wu k.mem = .ok (ok, d', m) ∧
        ((ok = true ∧ k'.mem = m ∧
            ((((k.procs a).sz + pgSize) % uintMod ≠ 0 ∧ r = pgRoundUp (k.procs a).sz ∧
                k'.procs a = { k.procs a with
                  pgdir := some d'
                  sz := ((k.procs a).sz + pgSize) % uintMod
                  shm := recordMapping (k.procs a).shm name (k.procs a).sz }) ∨
              (((k.procs a).sz + pgSize) % uintMod = 0 ∧ r = -1 ∧
                k'.procs a = { k.procs a with pgdir := some d' }))) ∨
          (ok = false ∧ r = 0 ∧ kfree L m pa = .ok k'.mem ∧
            k'.procs a = { k.procs a with pgdir := some d' })) := by
  unfold shmMap at h
  obtain ⟨⟨ok, d', m⟩, hmap, hrest⟩ := bind_eq_ok.mp h
  dsimp only at hrest
  cases ok with
  | true =>
    rw [if_pos rfl] at hrest
    split at hrest
    · rename_i hne
      cases hrest
      refine ⟨fun b hb => ?_, ⟨rfl, rfl, rfl⟩, true, d', m, hmap, .inl ⟨rfl, rfl, .inl ⟨hne, rfl, ?_⟩⟩⟩
      · simp only [State.update, Function.update_of_ne hb]
      · simp only [State.update, Function.update_self]
    · rename_i hz
      cases hrest
      refine ⟨fun b hb => ?_, ⟨rfl, rfl, rfl⟩, true, d', m, hmap,
        .inl ⟨rfl, rfl, .inr ⟨not_not.mp hz, rfl, ?_⟩⟩⟩
      · simp only [State.update, Function.update_of_ne hb]
      · simp only [State.update, Function.update_self]
  | false =>
    obtain ⟨m1, hfree, hret⟩ := bind_eq_ok.mp hrest
    cases hret
    refine ⟨fun b hb => ?_, ⟨rfl, rfl, rfl⟩, false, d', m, hmap, .inr ⟨rfl, rfl, hfree, ?_⟩⟩
    · simp only [State.update, Function.update_of_ne hb]
    · simp only [State.update, Function.update_self]

theorem shmGet_ok (h : shmGet L k a (some name) = .ok (r, k')) :
    (kernBase ≤ ((k.procs a).sz + pgSize) % uintMod ∧ r = -1 ∧ k' = k) ∨
      (((k.procs a).sz + pgSize) % uintMod < kernBase ∧ ∃ d, (k.procs a).pgdir = some d ∧
        (((shmAttach k.shared name).1 ≠ 0 ∧
            shmMap L { k with shared := (shmAttach k.shared name).2 } a d name
              (shmAttach k.shared name).1 = .ok (r, k')) ∨
          ((shmAttach k.shared name).1 = 0 ∧ ∃ x k1,
            shmCreate { k with shared := (shmAttach k.shared name).2 } a d name = .ok (x, k1) ∧
              ((x = none ∧ r = 0 ∧ k' = k1) ∨
                ∃ pa, x = some pa ∧ shmMap L k1 a d name pa = .ok (r, k'))))) := by
  simp only [shmGet] at h
  split at h
  · rename_i hge
    cases h
    exact .inl ⟨hge, rfl, rfl⟩
  split at h
  · cases h
  rename_i d hd
  refine .inr ⟨by omega, d, hd, ?_⟩
  split at h
  · rename_i hz
    obtain ⟨⟨x, k1⟩, hcreate, hrest⟩ := bind_eq_ok.mp h
    refine .inr ⟨hz, x, k1, hcreate, ?_⟩
    cases x with
    | none =>
      cases hrest
      exact .inl ⟨rfl, rfl, rfl⟩
    | some pa => exact .inr ⟨pa, rfl, hrest⟩
  · rename_i hne
    exact .inl ⟨hne, h⟩

end Xv6.Kernel
