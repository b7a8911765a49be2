import Xv6.Vm.KernelTables
import Xv6.Kernel.AddressSpace
import Xv6.Kernel.CopyRounds

/-! # Where the pages of a copy come from

`copyuvm` maps the pages of live blocks once more and takes every other page from the free
list. What fails gives its pages back, but it also frees the shared pages that it has mapped so
far.
-/

namespace Xv6.Kernel

open Lib Vm

variable {s s' s1 : SharedMemory} {pa a sz : Nat} {d d1 d' pgdir : PgDir} {m m1 m' : Mem} {perm : Perm}
  {L : Layout} {file : List UInt8} {ok : Bool}

/-! ## The table of shared pages -/

def SharedMemory.Live (s : SharedMemory) (i : Fin shmMaxNum) : Prop := 0 < (s.mems i).ref

def SharedMemory.Private (s : SharedMemory) (pg : Nat) : Prop :=
  ∀ i, s.Live i → (s.mems i).pa ≠ pg

/-- Blocks in use have different pages, and the others have none. -/
structure SharedMemory.Regular (s : SharedMemory) : Prop where
  nonneg : ∀ i, 0 ≤ (s.mems i).ref
  idle : ∀ i, (s.mems i).ref = 0 → (s.mems i).pa = 0
  nonzero : ∀ i, s.Live i → (s.mems i).pa ≠ 0
  unique : ∀ i j, s.Live i → s.Live j → (s.mems i).pa = (s.mems j).pa → i = j

theorem SharedMemory.Regular.live (h : s.Regular) {i : Fin shmMaxNum} (hi : (s.mems i).pa ≠ 0) : s.Live i := by
  have hnonneg := h.nonneg i
  have hne : (s.mems i).ref ≠ 0 := fun hz => hi (h.idle i hz)
  unfold SharedMemory.Live
  omega

theorem live_congr (h : s'.mems = s.mems) (i : Fin shmMaxNum) : s'.Live i ↔ s.Live i := by
  unfold SharedMemory.Live
  rw [h]

theorem SharedMemory.Regular.congr (hs : s.Regular) (h : s'.mems = s.mems) : s'.Regular := by
  constructor <;> simp only [live_congr h, h]
  · exact hs.nonneg
  · exact hs.idle
  · exact hs.nonzero
  · exact hs.unique

/-- `is_shm` recognises the pages of blocks, and `shm_index` finds the block. -/
theorem isShm_eq (hpa : pa ≠ 0) (h : isShm s pa = pa) : (s.mems (shmIndex s pa)).pa = pa := by
  unfold isShm at h
  unfold shmIndex
  cases hfind : (List.finRange shmMaxNum).find? fun i => (s.mems i).pa == pa with
  | none =>
    rw [hfind] at h
    exact absurd h.symm hpa
  | some i => simpa using List.find?_some hfind

/-! ## `copyuvm` -/

/-- From `d`, `s` and `m` to `d'`, `s'` and `m'` some pages of live blocks have been mapped,
with a reference each, and some pages of the free list. -/
structure Copies (d : PgDir) (s : SharedMemory) (m : Mem) (d' : PgDir) (s' : SharedMemory) (m' : Mem) :
    Prop where
  pa : ∀ i, (s'.mems i).pa = (s.mems i).pa
  live : ∀ i, s'.Live i ↔ s.Live i
  idle : ∀ i, ¬ s.Live i → (s'.mems i).ref = (s.mems i).ref
  ref : ∀ i, s.Live i → (s'.mems i).ref + d.uses (s.mems i).pa = (s.mems i).ref + d'.uses (s.mems i).pa
  moved : ∀ pg, s.Private pg → holds d' m' pg = holds d m pg
  kept : ∀ i, s.Live i → d'.tables (s.mems i).pa + m'.free.count (s.mems i).pa =
    d.tables (s.mems i).pa + m.free.count (s.mems i).pa

theorem Copies.refl (d : PgDir) (s : SharedMemory) (m : Mem) : Copies d s m d s m :=
  ⟨fun _ => rfl, fun _ => Iff.rfl, fun _ _ => rfl, fun _ _ => rfl, fun _ _ => rfl, fun _ _ => rfl⟩

theorem Copies.trans {d2 : PgDir} {s2 : SharedMemory} {m2 : Mem} (h1 : Copies d s m d1 s1 m1)
    (h2 : Copies d1 s1 m1 d2 s2 m2) : Copies d s m d2 s2 m2 where
  pa := fun i => (h2.pa i).trans (h1.pa i)
  live := fun i => (h2.live i).trans (h1.live i)
  idle := fun i hi => (h2.idle i fun hc => hi ((h1.live i).mp hc)).trans (h1.idle i hi)
  ref := by
    intro i hi
    have h := h2.ref i ((h1.live i).mpr hi)
    rw [h1.pa i] at h
    have := h1.ref i hi
    omega
  moved := by
    intro pg hpg
    have hpg1 : s1.Private pg := fun i hi => by
      rw [h1.pa i]
      exact hpg i ((h1.live i).mp hi)
    exact (h2.moved pg hpg1).trans (h1.moved pg hpg)
  kept := by
    intro i hi
    have h := h2.kept i ((h1.live i).mpr hi)
    rw [h1.pa i] at h
    exact h.trans (h1.kept i hi)

theorem copies_shared (hs : s.Regular) (hpa : pa ≠ 0) (hshm : isShm s pa = pa) (ha : a < kernBase)
    (hmap : MapsPage d m a ⟨pa, true, perm⟩ d' m') :
    Copies d s m d' (s.update (shmIndex s pa) fun b => { b with ref := b.ref + 1 }) m' := by
  generalize hj : shmIndex s pa = j
  have hpaj : (s.mems j).pa = pa := hj ▸ isShm_eq hpa hshm
  have hlive : s.Live j := hs.live (hpaj ▸ hpa)
  have huses : ∀ pg, d'.uses pg = d.uses pg + one pa pg := by
    intro pg
    rw [hmap.uses_eq ha pg, uses_present]
  have hone : ∀ i, s.Live i → i ≠ j → one pa (s.mems i).pa = 0 := by
    intro i hi hne
    refine if_neg fun heq => hne (hs.unique i j hi hlive ?_)
    rw [← heq, hpaj]
  refine ⟨fun i => ?_, fun i => ?_, fun i hi => ?_, fun i hi => ?_, fun pg hpg => ?_, fun i _ => hmap.moved _⟩
  · by_cases hij : i = j
    · rw [hij, mems_update_self]
    · rw [mems_update_of_ne s _ hij]
  · unfold SharedMemory.Live at *
    by_cases hij : i = j
    · rw [hij, mems_update_self]
      exact ⟨fun _ => hlive, fun _ => by dsimp only; omega⟩
    · rw [mems_update_of_ne s _ hij]
  · have hij : i ≠ j := by
      rintro rfl
      exact hi hlive
    rw [mems_update_of_ne s _ hij]
  · rw [huses]
    by_cases hij : i = j
    · rw [hij, mems_update_self, hpaj]
      simp only [one, if_true]
      omega
    · rw [mems_update_of_ne s _ hij, hone i hi hij]
      omega
  · have hne : one pa pg = 0 := if_neg fun heq => hpg j hlive (hpaj.trans heq)
    have hmoved := hmap.moved pg
    unfold holds
    rw [huses, hne]
    omega

theorem MapsPage.fresh (hmap : MapsPage d m1 a ⟨pa, true, perm⟩ d' m') (hfree : m.free = pa :: m1.free)
    (ha : a < kernBase) (pg : Nat) : holds d' m' pg = holds d m pg := by
  have hres : Reshapes 0 kernBase d m d' m' := hmap.reshapes hfree ha
    ⟨Nat.zero_le _, Nat.lt_of_le_of_lt (Nat.div_mul_le_self a pgSize) ha⟩
  exact hres.conserved pg

theorem copies_fresh (hfree : m.free = pa :: m1.free) (hlive : ∀ i, s.Live i → (s.mems i).pa ∉ m.free)
    (ha : a < kernBase) (hmap : MapsPage d m1 a ⟨pa, true, perm⟩ d' m') : Copies d s m d' s m' := by
  have hne : ∀ i, s.Live i → pa ≠ (s.mems i).pa := by
    intro i hi heq
    apply hlive i hi
    rw [hfree, heq]
    exact List.mem_cons_self
  refine ⟨fun _ => rfl, fun _ => Iff.rfl, fun _ _ => rfl, fun i hi => ?_,
    fun pg _ => MapsPage.fresh hmap hfree ha pg, fun i hi => ?_⟩
  · rw [hmap.uses_eq ha, uses_present]
    have : one pa (s.mems i).pa = 0 := if_neg (hne i hi)
    omega
  · rw [hmap.moved, hfree, List.count_cons_of_ne (hne i hi)]

theorem Copies.regular (h : Copies d s m d' s' m') (hs : s.Regular) : s'.Regular where
  nonneg := by
    intro i
    by_cases hi : s.Live i
    · exact Int.le_of_lt ((h.live i).mpr hi)
    · rw [h.idle i hi]
      exact hs.nonneg i
  idle := by
    intro i hz
    by_cases hi : s.Live i
    · have := (h.live i).mpr hi
      unfold SharedMemory.Live at this
      omega
    · rw [h.pa i]
      rw [h.idle i hi] at hz
      exact hs.idle i hz
  nonzero := by
    intro i hi
    rw [h.pa i]
    exact hs.nonzero i ((h.live i).mp hi)
  unique := by
    intro i j hi hj heq
    rw [h.pa i, h.pa j] at heq
    exact hs.unique i j ((h.live i).mp hi) ((h.live j).mp hj) heq

/-- The entry of the page at `b` maps the page of no block in use. -/
def NoShared (d : PgDir) (s : SharedMemory) (b : Nat) : Prop :=
  ∀ i, s.Live i → (d.entry b).uses (s.mems i).pa = 0

/-- After some rounds of `copyuvm`: a copy; as long as no page is shared, the table is as before
and all pages are accounted for. -/
structure CopySoFar (pgdir d : PgDir) (s : SharedMemory) (m : Mem) (v : Nat) (d' : PgDir) (s' : SharedMemory)
    (m' : Mem) : Prop where
  copies : Copies d s m d' s' m'
  live : ∀ j, s'.Live j → (s'.mems j).pa ∉ m'.free
  held : (∀ b, b < v * pgSize → NoShared pgdir s b) → s' = s ∧ ∀ pg, holds d' m' pg = holds d m pg

theorem CopySoFar.round {v : Nat} (hs : s.Regular)
    (hpte : ∀ b, b < kernBase → (pgdir.entry b).present = true → (pgdir.entry b).addr ≠ 0)
    (h : CopySoFar pgdir d s m v d1 s1 m1) (hv : v * pgSize < kernBase)
    (hround : CopyRound pgdir (v * pgSize) d1 s1 m1 d' s' m') : CopySoFar pgdir d s m (v + 1) d' s' m' := by
  have hless : (∀ b, b < (v + 1) * pgSize → NoShared pgdir s b) →
      NoShared pgdir s (v * pgSize) ∧ ∀ b, b < v * pgSize → NoShared pgdir s b := by
    intro hno
    have hlt : v * pgSize < (v + 1) * pgSize := by
      simp only [pgSize]
      omega
    exact ⟨hno _ hlt, fun b hb => hno b (Nat.lt_trans hb hlt)⟩
  cases hround with
  | hole => exact ⟨h.copies, h.live, fun hno => h.held (hless hno).2⟩
  | shared hpresent hshm hmap =>
    have hpa := hpte _ hv hpresent
    have hmaps := mappage_maps hmap
    have hs1 := h.copies.regular hs
    have hstep := copies_shared hs1 hpa hshm hv hmaps
    refine ⟨h.copies.trans hstep, fun j hj hin => ?_, fun hno => ?_⟩
    · rw [hstep.pa j] at hin
      exact h.live j ((hstep.live j).mp hj) (hmaps.subset _ hin)
    -- a shared page, so this says nothing
    obtain ⟨hself, hrest⟩ := hless hno
    obtain ⟨heq, -⟩ := h.held hrest
    rw [heq] at hshm
    have hidx := isShm_eq hpa hshm
    have huse := hself _ (hs.live (hidx.symm ▸ hpa))
    rw [hidx] at huse
    simp [Pte.uses, hpresent] at huse
  | @copied pa m2 _ _ hpresent hshm hk hmap =>
    have hfree : m1.free = pa :: (m2.memmove pa (pageBytes m2 (pgdir.entry (v * pgSize)).addr)).free :=
      (kalloc_some hk).1
    have hmaps := mappage_maps hmap
    refine ⟨h.copies.trans (copies_fresh hfree h.live hv hmaps), fun j hj hin => ?_, fun hno => ?_⟩
    · apply h.live j hj
      rw [hfree]
      exact List.mem_cons_of_mem _ (hmaps.subset _ hin)
    · obtain ⟨heq, hheld⟩ := h.held (hless hno).2
      exact ⟨heq, fun pg => (MapsPage.fresh hmaps hfree hv pg).trans (hheld pg)⟩

/-- A round for which memory is short: all pages go back, except for one in hand. -/
theorem CopySoFar.short {m2 : Mem} {v : Nat} (hs : s.Regular)
    (hpte : ∀ b, b < kernBase → (pgdir.entry b).present = true → (pgdir.entry b).addr ≠ 0)
    (h : CopySoFar pgdir d s m v d1 s1 m1) (hv : v * pgSize < kernBase)
    (hfails : CopyFails pgdir (v * pgSize) d1 s1 m1 m2) (hfree : freevm L d1 m2 = .ok m') :
    (∀ b, b < (v + 1) * pgSize → NoShared pgdir s b) → s1 = s ∧ ∀ pg, m'.free.count pg ≤ holds d m pg := by
  intro hno
  have hless : v * pgSize < (v + 1) * pgSize := by
    simp only [pgSize]
    omega
  obtain ⟨heq, hheld⟩ := h.held fun b hb => hno b (Nat.lt_trans hb hless)
  have hback := (freevm_ok hfree).1
  cases hfails with
  | shared hpresent hshm =>
    have hpa := hpte _ hv hpresent
    rw [heq] at hshm
    have hidx := isShm_eq hpa hshm
    have huse := hno _ hless _ (hs.live (hidx.symm ▸ hpa))
    rw [hidx] at huse
    simp [Pte.uses, hpresent] at huse
  | page => exact ⟨heq, fun pg => by rw [hback pg, hheld pg]⟩
  | table hpresent hshm hk =>
    refine ⟨heq, fun pg => ?_⟩
    rw [hback pg, ← hheld pg]
    unfold holds
    rw [(kalloc_some hk).2 pg]
    exact Nat.add_le_add_left (Nat.le_add_right _ _) _

theorem copyuvm_ok {r : Option PgDir} (hsz : sz ≤ kernBase) (hs : s.Regular)
    (hlive : ∀ j, s.Live j → (s.mems j).pa ∉ m.free)
    (hpte : ∀ b, b < kernBase → (pgdir.entry b).present = true → (pgdir.entry b).addr ≠ 0)
    (h : copyuvm L pgdir sz s m = .ok (r, s', m')) : (∀ d', r = some d' → ∃ d m1, (∀ pg, d.uses pg = 0) ∧
      (∀ pg, d.tables pg + m1.free.count pg = m.free.count pg) ∧ Copies d s m1 d' s' m') ∧
    (r = none → (∀ b, b < sizeUp sz → NoShared pgdir s b) → s' = s ∧
      ∀ pg, m'.free.count pg ≤ m.free.count pg) := by
  have hbelow : ∀ v, v < sizeUp sz / pgSize → v * pgSize < kernBase ∧ (v + 1) * pgSize ≤ sizeUp sz := by
    intro v hv
    simp only [sizeUp, pgSize, kernBase] at *
    omega
  rcases copyuvm_eq_ok h with ⟨rfl, rfl, hsetup⟩ | ⟨d, m1, hsetup, hrest⟩
  · obtain ⟨hcount, _⟩ := (setupkvm_ok hsetup).2 rfl
    exact ⟨fun _ hr => (by cases hr), fun _ _ => ⟨rfl, fun pg => Nat.le_of_eq (hcount pg)⟩⟩
  obtain ⟨hempty, hmoved, hsubset, -⟩ := (setupkvm_ok hsetup).1 d rfl
  have huses : ∀ pg, d.uses pg = 0 := uses_eq_zero fun b hb => by rw [hempty b hb]
  have hstart : CopySoFar pgdir d s m1 0 d s m1 :=
    ⟨.refl .., fun j hj hin => hlive j hj (hsubset _ hin), fun _ => ⟨rfl, fun _ => rfl⟩⟩
  rw [← sizeUp_div] at hrest
  rcases copyuvmLoop_rule (P := CopySoFar pgdir d s m1) (fun v _ _ _ _ _ _ hv hsofar => hsofar.round hs hpte (hbelow v hv).1) (Nat.zero_add _) hstart hrest with
    ⟨d', rfl, hend⟩ | ⟨rfl, v, d1, m2, m3, hv, hsofar, hfails, hfree⟩
  · refine ⟨fun d2 hd2 => ?_, fun hr => by cases hr⟩
    cases hd2
    exact ⟨d, m1, huses, hmoved, hend.copies⟩
  refine ⟨fun _ hr => (by cases hr), fun _ hno => ?_⟩
  obtain ⟨hs', hcount⟩ := hsofar.short hs hpte (hbelow v hv).1 hfails hfree
    fun b hb => hno b (Nat.lt_of_lt_of_le hb (hbelow v hv).2)
  refine ⟨hs', fun pg => ?_⟩
  have hle := hcount pg
  have hm := hmoved pg
  unfold holds at hle
  rw [huses pg] at hle
  omega

end Xv6.Kernel
