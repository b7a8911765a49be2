import Xv6.Lib.Count
import Xv6.Lib.Except
import Xv6.Vm.Paging

/-! # What the paging functions do to entries and pages

The functions of `vm.c` move pages between the free list, the page tables and the user
mappings of a page directory. For each of them: which entries change, and that every page
is afterwards held as often as before.
-/

namespace Xv6.Vm

open Function Lib

variable {a b pa va : Nat} {d d' : PgDir} {m m' : Mem} {perm : Perm} {x : Pte}

/-! ## Entries -/

/-- The entry of an address; one without a page table counts as zero. -/
def PgDir.entry (d : PgDir) (va : Nat) : Pte := (d.walk va).getD .zero

def SamePage (a b : Nat) : Prop := pdx a = pdx b ∧ ptx a = ptx b

instance (a b : Nat) : Decidable (SamePage a b) := inferInstanceAs (Decidable (_ ∧ _))

theorem samePage_iff {b : Nat} (ha : a < uintMod) (hb : b < uintMod) :
    SamePage a b ↔ a / pgSize = b / pgSize := by
  simp only [SamePage, pdx, ptx, uintMod, pgSize, Nat.reducePow] at *
  omega

theorem walk_set (ha : d.walk a ≠ none) :
    (d.set a x).walk b = if SamePage b a then some x else d.walk b := by
  unfold PgDir.set PgDir.walk at *
  cases hpde : d.pde (pdx a) with
  | none => simp [hpde] at ha
  | some t =>
    dsimp only
    by_cases hd : pdx b = pdx a
    · rw [hd, update_self, hpde]
      by_cases ht : ptx b = ptx a
      · rw [ht, if_pos ⟨hd, ht⟩]
        exact congrArg some (update_self ..)
      · rw [if_neg fun h => ht h.2]
        exact congrArg some (update_of_ne ht ..)
    · rw [if_neg fun h => hd h.1, update_of_ne hd]

theorem entry_set (ha : d.walk a ≠ none) :
    (d.set a x).entry b = if SamePage b a then x else d.entry b := by
  unfold PgDir.entry
  rw [walk_set ha]
  split <;> rfl

theorem set_page : (d.set a x).page = d.page := by
  unfold PgDir.set
  split <;> rfl

theorem set_pde_page (i : Nat) :
    ((d.set a x).pde i).map PgTab.page = (d.pde i).map PgTab.page := by
  unfold PgDir.set
  cases hpde : d.pde (pdx a) with
  | none => rfl
  | some t =>
    dsimp only
    by_cases hi : i = pdx a
    · rw [hi, update_self, hpde]
      rfl
    · rw [update_of_ne hi]

/-! ## Pages -/

abbrev userPages : Nat := kernBase / pgSize

/-- One if the entry maps the page, zero otherwise. -/
def Pte.uses (x : Pte) (pg : Nat) : Nat := if x.present ∧ x.addr = pg then 1 else 0

def PgDir.uses (d : PgDir) (pg : Nat) : Nat :=
  ∑ v ∈ Finset.range userPages, (d.entry (v * pgSize)).uses pg

/-- The times a page is the directory or a page table. -/
def PgDir.tables (d : PgDir) (pg : Nat) : Nat :=
  (if d.page = pg then 1 else 0) +
    ∑ i ∈ Finset.range npdEntries, if (d.pde i).map PgTab.page = some pg then 1 else 0

/-- How often a page is held by a directory or the free list. -/
def holds (d : PgDir) (m : Mem) (pg : Nat) : Nat := d.uses pg + d.tables pg + m.free.count pg

def one (p pg : Nat) : Nat := if p = pg then 1 else 0

theorem uses_congr (h : ∀ b, b < kernBase → d'.entry b = d.entry b) (pg : Nat) : d'.uses pg = d.uses pg := by
  unfold PgDir.uses
  apply Finset.sum_congr rfl
  intro v hv
  have hv' := Finset.mem_range.mp hv
  rw [h (v * pgSize) (by simp only [userPages, kernBase, pgSize] at *; omega)]

theorem tables_congr (hpage : d'.page = d.page)
    (h : ∀ i, (d'.pde i).map PgTab.page = (d.pde i).map PgTab.page) (pg : Nat) :
    d'.tables pg = d.tables pg := by
  unfold PgDir.tables
  rw [hpage]
  simp only [h]

theorem uses_set (x : Pte) (ha : d.walk a ≠ none) (hlt : a < kernBase) (pg : Nat) :
    (d.set a x).uses pg + (d.entry a).uses pg = d.uses pg + x.uses pg := by
  have hsame : ∀ v, v < userPages → (SamePage (v * pgSize) a ↔ v = a / pgSize) := by
    intro v hv
    rw [samePage_iff]
    · simp only [pgSize]
      omega
    · simp only [userPages, kernBase, pgSize, uintMod] at *
      omega
    · simp only [kernBase, uintMod] at *
      omega
  have hi : a / pgSize < userPages := by
    simp only [userPages, kernBase, pgSize] at *
    omega
  have hat := (hsame (a / pgSize) hi).mpr rfl
  have hentry : d.entry (a / pgSize * pgSize) = d.entry a := by
    unfold PgDir.entry PgDir.walk
    rw [hat.1, hat.2]
  have hsum := sum_change (f := fun v => ((d.set a x).entry (v * pgSize)).uses pg)
    (g := fun v => (d.entry (v * pgSize)).uses pg) (Finset.mem_range.mpr hi) (by
      intro v hv hne
      rw [entry_set ha, if_neg fun h => hne ((hsame v (Finset.mem_range.mp hv)).mp h)])
  rw [entry_set ha, if_pos hat, hentry] at hsum
  exact hsum

theorem tables_set (x : Pte) (pg : Nat) : (d.set a x).tables pg = d.tables pg :=
  tables_congr set_page set_pde_page pg

theorem uses_present (pa pg : Nat) (perm : Perm) : Pte.uses ⟨pa, true, perm⟩ pg = one pa pg := by
  simp [Pte.uses, one]

theorem uses_absent {x : Pte} (h : x.present = false) (pg : Nat) : x.uses pg = 0 := by
  simp [Pte.uses, h]

theorem set_absent (h : d.walk a = none) : d.set a x = d := by
  unfold PgDir.walk at h
  unfold PgDir.set
  rw [Option.map_eq_none_iff.mp h]

theorem entry_set_of_ne (d : PgDir) {b c : Nat} (x : Pte) (hne : ¬ SamePage c b) : (d.set b x).entry c = d.entry c := by
  by_cases hwalk : d.walk b = none
  · rw [set_absent hwalk]
  · rw [entry_set hwalk, if_neg hne]

theorem uses_clear (d : PgDir) (hlt : a < kernBase) (pg : Nat) :
    (d.set a .zero).uses pg + (d.entry a).uses pg = d.uses pg := by
  have hzero : Pte.zero.uses pg = 0 := uses_absent rfl pg
  cases hwalk : d.walk a with
  | none =>
    have hentry : d.entry a = .zero := by
      unfold PgDir.entry
      rw [hwalk, Option.getD_none]
    rw [set_absent hwalk, hentry, hzero, Nat.add_zero]
  | some pte => rw [uses_set .zero (by rw [hwalk]; exact nofun) hlt, hzero, Nat.add_zero]

theorem kalloc_some (h : kalloc m = some (pa, m')) :
    m.free = pa :: m'.free ∧ ∀ pg, m.free.count pg = m'.free.count pg + one pa pg := by
  unfold kalloc at h
  split at h
  · cases h
  rename_i free hfree
  cases h
  refine ⟨hfree, fun pg => ?_⟩
  rw [hfree, List.count_cons]
  simp [one]

theorem kalloc_none (h : kalloc m = none) : m.free = [] := by
  unfold kalloc at h
  split at h
  · assumption
  · cases h

theorem kfree_ok {L : Layout} (h : kfree L m pa = .ok m') :
    pa ≠ 0 ∧ m'.free = pa :: m.free ∧ ∀ pg, m'.free.count pg = m.free.count pg + one pa pg := by
  unfold kfree at h
  dsimp only at h
  split at h
  · cases h
  rename_i hv
  cases h
  refine ⟨?_, rfl, fun pg => ?_⟩
  · rintro rfl
    apply hv
    refine .inr (.inl ?_)
    have hdata := L.kernLink_lt_data
    have hend := L.data_lt_kend
    have hzero : p2v 0 = kernBase := by decide
    simp only [kernLink, extMem] at hdata
    omega
  · rw [List.count_cons]
    simp [one]

/-! ## Adding page tables -/

/-- The directory entries without a page table. -/
def PgDir.absent (d : PgDir) : Nat :=
  ∑ i ∈ Finset.range npdEntries, if d.pde i = none then 1 else 0

/-- From `d` and `m` to `d'` and `m'` some pages of the free list have become empty page
tables. -/
structure Grows (d : PgDir) (m : Mem) (d' : PgDir) (m' : Mem) : Prop where
  entry_eq : ∀ b, d'.entry b = d.entry b
  walk : ∀ b, d.walk b ≠ none → d'.walk b ≠ none
  moved : ∀ pg, d'.tables pg + m'.free.count pg = d.tables pg + m.free.count pg
  subset : ∀ pg ∈ m'.free, pg ∈ m.free
  spare : d'.absent + m.free.length = d.absent + m'.free.length

theorem Grows.refl (d : PgDir) (m : Mem) : Grows d m d m :=
  ⟨fun _ => rfl, fun _ h => h, fun _ => rfl, fun _ h => h, rfl⟩

theorem pdx_lt (va : Nat) : pdx va < npdEntries := Nat.mod_lt _ (by decide)

theorem walk_eq_none_iff : d.walk va = none ↔ d.pde (pdx va) = none := by
  unfold PgDir.walk
  rw [Option.map_eq_none_iff]

theorem absent_pos (h : d.walk va = none) : 0 < d.absent := by
  apply Finset.sum_pos' (fun _ _ => Nat.zero_le _)
  refine ⟨pdx va, Finset.mem_range.mpr (pdx_lt va), ?_⟩
  rw [if_pos (walk_eq_none_iff.mp h)]
  decide

theorem grows_update {i pgtab : Nat} (hi : i < npdEntries) (habsent : d.pde i = none)
    (hfree : m.free = pgtab :: m'.free) :
    Grows d m { d with pde := update d.pde i (some ⟨pgtab, fun _ => .zero⟩) } m' := by
  have hne : ∀ j, j ≠ i →
      update d.pde i (some ⟨pgtab, fun _ => .zero⟩) j = d.pde j := fun j hj =>
    update_of_ne hj ..
  refine ⟨fun b => ?_, fun b hb => ?_, fun pg => ?_, fun pg hpg => ?_, ?_⟩
  · unfold PgDir.entry PgDir.walk
    by_cases hb : pdx b = i
    · rw [hb, habsent]
      dsimp only
      rw [update_self]
      rfl
    · dsimp only
      rw [hne _ hb]
  · rw [Ne, walk_eq_none_iff] at hb ⊢
    by_cases hi : pdx b = i
    · rw [hi] at hb
      exact absurd habsent hb
    · dsimp only
      rw [hne _ hi]
      exact hb
  · have hsum := sum_change
      (f := fun j => if (update d.pde i (some ⟨pgtab, fun _ => .zero⟩) j).map PgTab.page =
        some pg then 1 else 0)
      (g := fun j => if (d.pde j).map PgTab.page = some pg then 1 else 0)
      (Finset.mem_range.mpr hi) (fun j _ hj => by rw [hne j hj])
    rw [update_self, habsent, hfree, List.count_cons] at *
    simp only [Option.map_none, reduceCtorEq, if_false, Option.map_some, Option.some.injEq] at hsum
    unfold PgDir.tables
    by_cases hpg : pgtab = pg
    · simp only [hpg, if_true, beq_self_eq_true] at hsum ⊢
      omega
    · simp only [hpg, if_false, beq_iff_eq] at hsum ⊢
      omega
  · rw [hfree]
    exact List.mem_cons_of_mem _ hpg
  · have hsum := sum_change
      (f := fun j => if update d.pde i (some ⟨pgtab, fun _ => .zero⟩) j = none then 1 else 0)
      (g := fun j => if d.pde j = none then 1 else 0)
      (Finset.mem_range.mpr hi) (fun j _ hj => by rw [hne j hj])
    rw [update_self, habsent] at hsum
    simp only [reduceCtorEq, if_false, if_true] at hsum
    unfold PgDir.absent
    rw [hfree, List.length_cons]
    dsimp only
    omega

theorem walkpgdir_some (h : walkpgdir d va m = some (d', m')) : Grows d m d' m' ∧ d'.walk va ≠ none := by
  unfold walkpgdir at h
  split at h
  · rename_i t ht
    cases h
    refine ⟨Grows.refl d m, ?_⟩
    rw [Ne, walk_eq_none_iff, ht]
    simp
  rename_i habsent
  split at h
  · cases h
  rename_i pgtab m1 hk
  cases h
  refine ⟨grows_update (pdx_lt va) habsent (kalloc_some hk).1, ?_⟩
  rw [Ne, walk_eq_none_iff]
  simp

theorem walkpgdir_none (h : walkpgdir d va m = none) : d.walk va = none ∧ m.free = [] := by
  unfold walkpgdir at h
  split at h
  · cases h
  rename_i habsent
  split at h
  · rename_i hk
    exact ⟨walk_eq_none_iff.mpr habsent, kalloc_none hk⟩
  · cases h

/-- A round of `mappages` succeeds after `walkpgdir`, at an entry that is not present. -/
theorem mappage_walk (h : mappage d a pa perm m = .ok (true, d', m')) : (d.entry a).present = false ∧
      ∃ d1, walkpgdir d a m = some (d1, m') ∧ d' = d1.set a ⟨pa, true, perm⟩ := by
  unfold mappage at h
  split at h
  · cases h
  rename_i d1 m1 hwalk
  split at h
  · cases h
  rename_i hpresent
  cases h
  refine ⟨?_, d1, hwalk, rfl⟩
  rw [← (walkpgdir_some hwalk).1.entry_eq a]
  exact Bool.eq_false_iff.mpr hpresent

/-- It fails only for want of a page table. -/
theorem mappage_done (hvacant : (d.entry a).present = false) (hroom : d.walk a ≠ none ∨ m.free ≠ [])
    (pa : Nat) (perm : Perm) : ∃ d' m', mappage d a pa perm m = .ok (true, d', m') := by
  unfold mappage
  cases hwalk : walkpgdir d a m with
  | none =>
    obtain ⟨hnone, hfree⟩ := walkpgdir_none hwalk
    exact hroom.elim (absurd hnone) (absurd hfree)
  | some r =>
    have hentry := (walkpgdir_some hwalk).1.entry_eq a
    unfold PgDir.entry at hentry hvacant
    dsimp only
    rw [hentry, hvacant]
    exact ⟨_, _, rfl⟩

theorem mappage_false (h : mappage d a pa perm m = .ok (false, d', m')) :
    d' = d ∧ m' = m ∧ d.walk a = none ∧ m.free = [] := by
  unfold mappage at h
  split at h
  · rename_i hwalk
    cases h
    exact ⟨rfl, rfl, walkpgdir_none hwalk⟩
  · split at h
    · cases h
    · cases h

theorem mappage_error {e : String} (h : mappage d a pa perm m = .error e) :
    (d.entry a).present = true ∧ e = "remap" := by
  unfold mappage at h
  split at h
  · cases h
  rename_i d1 m1 hwalk
  split at h
  · rename_i hpresent
    cases h
    rw [← (walkpgdir_some hwalk).1.entry_eq a]
    exact ⟨hpresent, rfl⟩
  · cases h

/-- One user or kernel page mapped where nothing was present. -/
structure MapsPage (d : PgDir) (m : Mem) (a : Nat) (x : Pte) (d' : PgDir) (m' : Mem) : Prop where
  vacant : (d.entry a).present = false
  entry_eq : ∀ b, d'.entry b = if SamePage b a then x else d.entry b
  walk : ∀ b, d.walk b ≠ none → d'.walk b ≠ none
  moved : ∀ pg, d'.tables pg + m'.free.count pg = d.tables pg + m.free.count pg
  uses_eq : a < kernBase → ∀ pg, d'.uses pg = d.uses pg + x.uses pg
  subset : ∀ pg ∈ m'.free, pg ∈ m.free
  spare : d'.absent + m.free.length = d.absent + m'.free.length

theorem MapsPage.present {b : Nat} (h : MapsPage d m a ⟨pa, true, perm⟩ d' m')
    (hb : (d.entry b).present = true) : (d'.entry b).present = true := by
  rw [h.entry_eq]
  split
  · rfl
  · exact hb

theorem absent_set (x : Pte) : (d.set a x).absent = d.absent := by
  unfold PgDir.absent
  apply Finset.sum_congr rfl
  intro i _
  have hiff : (d.set a x).pde i = none ↔ d.pde i = none := by
    rw [← Option.map_eq_none_iff (f := PgTab.page), set_pde_page, Option.map_eq_none_iff]
  simp only [hiff]

theorem mappage_maps (h : mappage d a pa perm m = .ok (true, d', m')) :
    MapsPage d m a ⟨pa, true, perm⟩ d' m' := by
  obtain ⟨hvacant, d1, hwalk, rfl⟩ := mappage_walk h
  obtain ⟨hgrows, hat⟩ := walkpgdir_some hwalk
  have hentry : ∀ b, (d1.set a ⟨pa, true, perm⟩).entry b =
      if SamePage b a then ⟨pa, true, perm⟩ else d.entry b := fun b => by
    rw [entry_set hat, hgrows.entry_eq b]
  refine ⟨hvacant, hentry, fun b hb => ?_, fun pg => ?_, fun hlt pg => ?_, hgrows.subset, ?_⟩
  · rw [walk_set hat]
    split
    · simp
    · exact hgrows.walk b hb
  · rw [tables_set]
    exact hgrows.moved pg
  · have hset := uses_set ⟨pa, true, perm⟩ hat hlt pg
    have hsame : d1.uses pg = d.uses pg := uses_congr (fun b _ => hgrows.entry_eq b) pg
    rw [hgrows.entry_eq a, uses_absent hvacant, hsame, Nat.add_zero] at hset
    exact hset
  · rw [absent_set]
    exact hgrows.spare

theorem walkpgdir_pde {va : Nat} (h : walkpgdir d va m = some (d', m')) (j : Nat) :
    d'.pde j = none ↔ d.pde j = none ∧ j ≠ pdx va := by
  unfold walkpgdir at h
  split at h
  · rename_i t ht
    cases h
    constructor
    · intro hnone
      refine ⟨hnone, ?_⟩
      intro hj
      rw [hj, ht] at hnone
      cases hnone
    · exact fun hnone => hnone.1
  · split at h
    · cases h
    cases h
    dsimp only
    by_cases hj : j = pdx va
    · rw [hj, update_self]
      simp
    · rw [update_of_ne hj]
      exact ⟨fun hnone => ⟨hnone, hj⟩, fun hnone => hnone.1⟩

theorem set_pde_none {j : Nat} (x : Pte) : (d.set a x).pde j = none ↔ d.pde j = none := by
  have hpage := set_pde_page (d := d) (a := a) (x := x) j
  constructor
  · intro hnone
    rw [hnone] at hpage
    exact Option.map_eq_none_iff.mp hpage.symm
  · intro hnone
    rw [hnone] at hpage
    exact Option.map_eq_none_iff.mp hpage

theorem mappage_pde (h : mappage d a pa perm m = .ok (true, d', m')) (j : Nat) :
    d'.pde j = none ↔ d.pde j = none ∧ j ≠ pdx a := by
  obtain ⟨-, d1, hwalk, rfl⟩ := mappage_walk h
  rw [set_pde_none]
  exact walkpgdir_pde hwalk j

theorem pgRoundDown_of_dvd (h : pgSize ∣ a) : pgRoundDown a = a := Nat.div_mul_cancel h

theorem mappages_one (ha : pgSize ∣ a) :
    mappages d a pgSize pa perm m = mappage d a pa perm m := by
  have hrounds : (pgRoundDown ((a + pgSize + uintMod - 1) % uintMod) + uintMod - pgRoundDown a) %
      uintMod / pgSize + 1 = 1 := by
    simp only [pgRoundDown, pgSize, uintMod, Nat.reducePow] at *
    omega
  unfold mappages
  dsimp only
  rw [hrounds, pgRoundDown_of_dvd ha]
  simp only [mappagesLoop]
  cases mappage d a pa perm m with
  | error e => rfl
  | ok r =>
    obtain ⟨ok, d', m'⟩ := r
    cases ok <;> rfl

end Xv6.Vm
