import Xv6.Vm.AddressRange

/-! # The kernel's mappings

What `mappages` maps and what `setupkvm` builds from it. The regions of `kmap`
need 64 page tables, all for directory entries of the upper half. With the directory itself `setupkvm`
takes 65 pages, and it fails exactly when there are fewer.
-/

namespace Xv6.Vm

open Lib

variable {d d' : PgDir} {m m' : Mem} {a pa lo : Nat} {perm : Perm}

/-- The directory entries that the regions of `kmap` need: for physical memory up to `PHYSTOP`,
and for the devices. -/
def KernelTable (j : Nat) : Prop := (512 ≤ j ∧ j < 568) ∨ (1016 ≤ j ∧ j < 1024)

instance (j : Nat) : Decidable (KernelTable j) := inferInstanceAs (Decidable (_ ∨ _))

abbrev kernelPages : Nat := 65

/-! ## `mappages` -/

/-- The directory entries of the addresses from `lo` to `hi`. -/
def Covers (lo hi j : Nat) : Prop := ∃ x, lo ≤ x ∧ x < hi ∧ pdx x = j

variable {j hi : Nat} {d1 d2 : PgDir} {m1 m2 : Mem}

theorem covers_next (ha : pgSize ∣ a) (hlo : lo ≤ a) :
    Covers lo (a + pgSize) j ↔ Covers lo a j ∨ j = pdx a := by
  constructor
  · intro h
    obtain ⟨x, hlo, hhi, hx⟩ := h
    by_cases hbelow : x < a
    · exact .inl ⟨x, hlo, hbelow, hx⟩
    · apply Or.inr
      obtain ⟨c, rfl⟩ := ha
      simp only [pdx, pgSize] at *
      omega
  · intro h
    rcases h with ⟨x, hlo, hhi, hx⟩ | rfl
    · exact ⟨x, hlo, Nat.lt_add_right _ hhi, hx⟩
    · exact ⟨a, hlo, Nat.lt_add_of_pos_right (by decide), rfl⟩

/-- The pages from `lo` to `hi` are mapped; page tables come from the free list. -/
structure MapsRange (lo hi : Nat) (perm : Perm) (d : PgDir) (m : Mem) (d' : PgDir) (m' : Mem) : Prop where
  inside : ∀ b, b < uintMod → InRange lo hi b → (d'.entry b).present = true ∧ (d'.entry b).perm = perm
  outside : ∀ b, b < uintMod → ¬ InRange lo hi b → d'.entry b = d.entry b
  pde : ∀ j, d'.pde j ≠ none ↔ d.pde j ≠ none ∨ Covers lo hi j
  moved : ∀ pg, d'.tables pg + m'.free.count pg = d.tables pg + m.free.count pg
  spare : d'.absent + m.free.length = d.absent + m'.free.length
  takes : ∃ l, Takes m l m'

theorem MapsRange.refl (lo : Nat) (perm : Perm) (d : PgDir) (m : Mem) : MapsRange lo lo perm d m d m where
  inside := fun _ _ hin => absurd hin.2 (Nat.not_lt.mpr hin.1)
  outside := fun _ _ _ => rfl
  pde := by
    refine fun j => ⟨.inl, fun hj => hj.resolve_right fun hcovers => ?_⟩
    obtain ⟨x, hlo, hhi, -⟩ := hcovers
    exact absurd hhi (Nat.not_lt.mpr hlo)
  moved := fun _ => rfl
  spare := rfl
  takes := ⟨[], .refl m⟩

theorem MapsRange.next (h : MapsRange lo a perm d m d1 m1) (ha : pgSize ∣ a) (hlo : lo ≤ a)
    (hlt : a < uintMod) (hmap : mappage d1 a pa perm m1 = .ok (true, d2, m2)) :
    MapsRange lo (a + pgSize) perm d m d2 m2 := by
  have hmaps := mappage_maps hmap
  refine ⟨fun b hb hin => ?_, fun b hb hout => ?_, fun j => ?_, fun pg => ?_, ?_, ?_⟩
  · rw [hmaps.entry_round ha hlt hb]
    rcases (inRange_next ha hlo).mp hin with heq | hin'
    · rw [if_pos heq]
      exact ⟨rfl, rfl⟩
    · rw [if_neg (Nat.ne_of_lt hin'.2)]
      exact h.inside b hb hin'
  · rw [inRange_next ha hlo, not_or] at hout
    rw [hmaps.entry_round ha hlt hb, if_neg hout.1]
    exact h.outside b hb hout.2
  · rw [covers_next ha hlo, ← or_assoc, ← h.pde j, Ne, mappage_pde hmap j, not_and_or, not_not]
  · exact (hmaps.moved pg).trans (h.moved pg)
  · have hbefore := h.spare
    have hspare := hmaps.spare
    omega
  · obtain ⟨l, htakes⟩ := h.takes
    obtain ⟨l', htable⟩ := mappage_takes hmap
    exact ⟨l ++ l', htakes.trans htable⟩

/-- How the loop of `mappages` ends at the page `a`. -/
inductive MapEnds (hi a : Nat) (d : PgDir) (m : Mem) : Except String (Bool × PgDir × Mem) → Prop
  | done (h : a = hi) : MapEnds hi a d m (.ok (true, d, m))
  | short (h : a < hi) (hnone : d.walk a = none) (hempty : m.free = []) : MapEnds hi a d m (.ok (false, d, m))
  | remap (h : a < hi) (hpresent : (d.entry a).present = true) : MapEnds hi a d m (.error "remap")

theorem mappagesLoop_outcome {n : Nat} {d0 : PgDir} {m0 : Mem} (ha : pgSize ∣ a) (hlo : lo ≤ a)
    (hhi : hi = a + n * pgSize) (htop : hi ≤ uintMod) (h : MapsRange lo a perm d0 m0 d m) :
    ∃ a1 d1 m1, lo ≤ a1 ∧ pgSize ∣ a1 ∧ MapsRange lo a1 perm d0 m0 d1 m1 ∧
      MapEnds hi a1 d1 m1 (mappagesLoop perm n a pa d m) := by
  induction n generalizing a pa d m with
  | zero =>
    rw [Nat.zero_mul, Nat.add_zero] at hhi
    exact ⟨a, d, m, hlo, ha, h, .done hhi.symm⟩
  | succ n ih =>
    have hlt : a < hi := by
      simp only [pgSize] at hhi
      omega
    have haddr := Nat.lt_of_lt_of_le hlt htop
    simp only [mappagesLoop]
    cases hmap : mappage d a pa perm m with
    | error e =>
      obtain ⟨hpresent, rfl⟩ := mappage_error hmap
      exact ⟨a, d, m, hlo, ha, h, .remap hlt hpresent⟩
    | ok x =>
      obtain ⟨ok, d2, m2⟩ := x
      rw [ok_bind]
      cases ok with
      | false =>
        obtain ⟨rfl, rfl, hnone, hempty⟩ := mappage_false hmap
        exact ⟨a, d2, m2, hlo, ha, h, .short hlt hnone hempty⟩
      | true =>
        have hnext := h.next ha hlo haddr hmap
        have hlo' := Nat.le_trans hlo (Nat.le_add_right a pgSize)
        have hdvd : pgSize ∣ a + pgSize := Nat.dvd_add ha (Nat.dvd_refl _)
        have hhi' : hi = a + pgSize + n * pgSize := by
          simp only [pgSize] at hhi ⊢
          omega
        rw [if_pos rfl]
        -- the last round may end at the top of the address space
        cases n with
        | zero =>
          rw [Nat.zero_mul, Nat.add_zero] at hhi'
          exact ⟨a + pgSize, d2, m2, hlo', hdvd, hnext, .done hhi'.symm⟩
        | succ n =>
          have hmod : (a + pgSize) % uintMod = a + pgSize := by
            simp only [pgSize, uintMod] at *
            omega
          rw [hmod]
          exact ih hdvd hlo' hhi' hnext

theorem mappages_outcome {va size : Nat} (pa : Nat) (perm : Perm) (d : PgDir) (m : Mem) (hva : pgSize ∣ va)
    (hwhole : pgSize ∣ size) (hsize : 0 < size) (htop : va + size ≤ uintMod) :
    ∃ a d1 m1, va ≤ a ∧ pgSize ∣ a ∧ MapsRange va a perm d m d1 m1 ∧
      MapEnds (va + size) a d1 m1 (mappages d va size pa perm m) := by
  have hrounds : (pgRoundDown ((va + size + uintMod - 1) % uintMod) + uintMod - va) % uintMod / pgSize + 1 =
      size / pgSize := by
    obtain ⟨x, hx⟩ := hva
    obtain ⟨y, hy⟩ := hwhole
    simp only [pgRoundDown, pgSize, uintMod, Nat.reducePow] at *
    omega
  unfold mappages
  dsimp only
  rw [pgRoundDown_of_dvd hva, hrounds]
  exact mappagesLoop_outcome hva (Nat.le_refl va) (by rw [Nat.div_mul_cancel hwhole]) htop (.refl ..)

/-! ## `kmap` -/

def Kmap.size (k : Kmap) : Nat := (k.physEnd + uintMod - k.physStart) % uintMod

/-- Regions of whole pages, one behind the other. -/
def Ascending : Nat → List Kmap → Prop
  | _, [] => True
  | lo, k :: ks =>
    lo ≤ k.virt ∧ pgSize ∣ k.virt ∧ pgSize ∣ k.size ∧ 0 < k.size ∧ k.virt + k.size ≤ uintMod ∧
      Ascending (k.virt + k.size) ks

theorem kmap_ascending (L : Layout) : Ascending kernBase (kmap L) := by
  obtain ⟨x, h1⟩ := L.data_aligned
  have h2 := L.kernLink_lt_data
  have h3 := L.data_lt_kend
  have h4 := L.kend_le_top
  simp only [kmap, Ascending, Kmap.size, v2p, kernLink, devSpace, kernBase, extMem, physTop, uintMod,
    pgSize, and_true, Nat.reducePow] at *
  omega

theorem kmap_user (L : Layout) {k : Kmap} (hk : k ∈ kmap L) : k.perm.user = false := by
  simp only [kmap, List.mem_cons, List.not_mem_nil, or_false] at hk
  rcases hk with rfl | rfl | rfl | rfl <;> rfl

def Kmap.Covers (k : Kmap) (j : Nat) : Prop :=
  Vm.Covers k.virt (k.virt + k.size) j

theorem kmap_covers (L : Layout) (j : Nat) : (∃ k ∈ kmap L, k.Covers j) ↔ KernelTable j := by
  have h2 := L.kernLink_lt_data
  have h3 := L.data_lt_kend
  have h4 := L.kend_le_top
  constructor
  · intro h
    obtain ⟨k, hk, x, hlo, hhi, rfl⟩ := h
    simp only [kmap, List.mem_cons, List.not_mem_nil, or_false] at hk
    rcases hk with rfl | rfl | rfl | rfl <;>
      simp only [Kmap.size, v2p, kernLink, kernBase, extMem, physTop, devSpace, uintMod, KernelTable, pdx,
        Nat.reducePow] at * <;> omega
  · intro h
    have hsize : ∀ k ∈ kmap L, k.virt ≤ j * 2 ^ 22 →
        j * 2 ^ 22 < k.virt + k.size → ∃ k ∈ kmap L, k.Covers j := by
      intro k hk hlo hhi
      refine ⟨k, hk, j * 2 ^ 22, hlo, hhi, ?_⟩
      simp only [KernelTable, pdx] at *
      omega
    rcases h with hphys | hdevices
    · by_cases hlink : j * 2 ^ 22 < kernLink
      · apply hsize _ List.mem_cons_self <;>
          simp only [Kmap.size, kernLink, kernBase, extMem, uintMod, Nat.reducePow] at * <;> omega
      by_cases hbelow : j * 2 ^ 22 < L.data
      · apply hsize _ (List.mem_cons_of_mem _ List.mem_cons_self) <;>
          simp only [Kmap.size, v2p, kernLink, kernBase, extMem, physTop, uintMod, Nat.reducePow] at * <;> omega
      · apply hsize _ (List.mem_cons_of_mem _ (List.mem_cons_of_mem _ List.mem_cons_self)) <;>
          simp only [Kmap.size, v2p, kernLink, kernBase, extMem, physTop, uintMod, Nat.reducePow] at * <;> omega
    · apply hsize _ (List.mem_cons_of_mem _ (List.mem_cons_of_mem _ (List.mem_cons_of_mem _ List.mem_cons_self))) <;>
        simp only [Kmap.size, devSpace, uintMod, Nat.reducePow] at * <;> omega

/-! ## `setupkvm` -/

def VacantFrom (d : PgDir) (lo : Nat) : Prop :=
  ∀ b, lo ≤ b → b < uintMod → (d.entry b).present = false

/-- Entries change above `KERNBASE` only, to ones that user code cannot use; page tables come from
the free list. -/
structure KernelOnly (d : PgDir) (m : Mem) (d' : PgDir) (m' : Mem) : Prop where
  entry_eq : ∀ b, b < kernBase → d'.entry b = d.entry b
  kernel : ∀ b, b < uintMod → d'.entry b = d.entry b ∨
    ((d'.entry b).present = true ∧ (d'.entry b).perm.user = false)
  moved : ∀ pg, d'.tables pg + m'.free.count pg = d.tables pg + m.free.count pg
  spare : d'.absent + m.free.length = d.absent + m'.free.length
  takes : ∃ l, Takes m l m'

theorem KernelOnly.refl (d : PgDir) (m : Mem) : KernelOnly d m d m :=
  ⟨fun _ _ => rfl, fun _ _ => .inl rfl, fun _ => rfl, rfl, [], .refl m⟩

theorem KernelOnly.trans (h1 : KernelOnly d m d1 m1) (h2 : KernelOnly d1 m1 d2 m2) :
    KernelOnly d m d2 m2 where
  entry_eq := fun b hb => (h2.entry_eq b hb).trans (h1.entry_eq b hb)
  kernel := by
    intro b hb
    rcases h2.kernel b hb with heq | hkernel
    · rw [heq]
      exact h1.kernel b hb
    · exact .inr hkernel
  moved := fun pg => (h2.moved pg).trans (h1.moved pg)
  spare := by
    have hfirst := h1.spare
    have hsecond := h2.spare
    omega
  takes := by
    obtain ⟨l, hl⟩ := h1.takes
    obtain ⟨l', hl'⟩ := h2.takes
    exact ⟨l ++ l', hl.trans hl'⟩

theorem KernelOnly.present (h : KernelOnly d m d' m') {b : Nat} (hb : b < uintMod)
    (hpresent : (d.entry b).present = true) : (d'.entry b).present = true := by
  rcases h.kernel b hb with heq | ⟨hpresent', -⟩
  · rw [heq]
    exact hpresent
  · exact hpresent'

theorem MapsRange.kernelOnly (h : MapsRange lo hi perm d m d' m') (hlo : kernBase ≤ lo)
    (huser : perm.user = false) : KernelOnly d m d' m' where
  entry_eq := by
    intro b hb
    apply h.outside b (lt_uintMod hb)
    intro hin
    exact absurd (Nat.lt_of_le_of_lt (Nat.div_mul_le_self b pgSize) hb) (Nat.not_lt.mpr (Nat.le_trans hlo hin.1))
  kernel := by
    intro b hb
    by_cases hin : InRange lo hi b
    · obtain ⟨hpresent, hperm⟩ := h.inside b hb hin
      rw [hperm]
      exact .inr ⟨hpresent, huser⟩
    · exact .inl (h.outside b hb hin)
  moved := h.moved
  spare := h.spare
  takes := h.takes

/-- The regions are all mapped, or a page table is missing for one and memory is used up. -/
theorem setupkvmLoop_outcome (L : Layout) {ks : List Kmap} (hks : Ascending lo ks)
    (huser : ∀ k ∈ ks, k.perm.user = false) (hlo : kernBase ≤ lo) (hvacant : VacantFrom d lo) :
    ∃ d1 m1, KernelOnly d m d1 m1 ∧
      (((∀ j, d1.pde j ≠ none ↔ d.pde j ≠ none ∨ ∃ k ∈ ks, k.Covers j) ∧
          (∀ k ∈ ks, (d1.entry k.virt).present = true) ∧ setupkvmLoop L ks d m = .ok (some d1, m1)) ∨
        ((∀ j, d1.pde j ≠ none → d.pde j ≠ none ∨ ∃ k ∈ ks, k.Covers j) ∧
          (∃ k ∈ ks, ∃ j, k.Covers j ∧ d1.pde j = none) ∧ m1.free = [] ∧
          setupkvmLoop L ks d m = (do
            let m ← freevm L d1 m1
            return (none, m)))) := by
  induction ks generalizing lo d m with
  | nil =>
    refine ⟨d, m, .refl d m, .inl ⟨fun j => ?_, fun k hk => absurd hk List.not_mem_nil, rfl⟩⟩
    simp
  | cons k ks ih =>
    obtain ⟨hle, hva, hwhole, hsize, htop, hrest⟩ := hks
    have hkern := Nat.le_trans hlo hle
    have huserk := huser k List.mem_cons_self
    obtain ⟨a, d1, m1, hvle, ha, hmaps, hends⟩ := mappages_outcome k.physStart k.perm d m hva hwhole hsize htop
    have hfirst := hmaps.kernelOnly hkern huserk
    unfold Kmap.size at hends htop hrest
    simp only [setupkvmLoop]
    generalize mappages d k.virt _ k.physStart k.perm m = res at hends
    cases hends with
    | remap hlt hpresent =>
      have haddr := Nat.lt_of_lt_of_le hlt htop
      have hout : ¬ InRange k.virt a a := fun hin => by
        have hbelow := hin.2
        rw [pgRoundDown_of_dvd ha] at hbelow
        exact absurd hbelow (Nat.lt_irrefl a)
      rw [hmaps.outside a haddr hout, hvacant a (Nat.le_trans hle hvle) haddr] at hpresent
      cases hpresent
    | short hlt hnone hempty =>
      have hcovers : ∀ j, Covers k.virt a j → k.Covers j := by
        intro j hj
        obtain ⟨x, hx, hxa, hxj⟩ := hj
        exact ⟨x, hx, Nat.lt_trans hxa hlt, hxj⟩
      refine ⟨d1, m1, hfirst, .inr ⟨fun j hj => ?_, ?_, hempty, rfl⟩⟩
      · rcases (hmaps.pde j).mp hj with hold | hnew
        · exact .inl hold
        · exact .inr ⟨k, List.mem_cons_self, hcovers j hnew⟩
      · exact ⟨k, List.mem_cons_self, pdx a, ⟨a, hvle, hlt, rfl⟩, walk_eq_none_iff.mp hnone⟩
    | done hdone =>
      subst hdone
      have hvacant1 : VacantFrom d1 (k.virt + (k.physEnd + uintMod - k.physStart) % uintMod) := by
        intro b hb hlt
        rw [hmaps.outside b hlt]
        · exact hvacant b (Nat.le_trans (Nat.le_trans hle hvle) hb) hlt
        intro hin
        have hbelow := hin.2
        obtain ⟨c, hc⟩ := ha
        rw [hc] at hb hbelow
        simp only [pgRoundDown, pgSize] at hb hbelow
        omega
      obtain ⟨d2, m2, hlast, hcase⟩ := ih hrest (fun k hk => huser k (List.mem_cons_of_mem _ hk))
        (Nat.le_trans hkern hvle) hvacant1
      have hpde : ∀ j, (d1.pde j ≠ none ∨ ∃ k ∈ ks, k.Covers j) ↔
          (d.pde j ≠ none ∨ ∃ k' ∈ k :: ks, k'.Covers j) := by
        intro j
        rw [hmaps.pde j, List.exists_mem_cons_iff, or_assoc]
        rfl
      refine ⟨d2, m2, hfirst.trans hlast, ?_⟩
      rcases hcase with ⟨hall, hpresent, hloop⟩ | ⟨hwithin, hmissing, hempty, hloop⟩
      · refine .inl ⟨fun j => (hall j).trans (hpde j), fun k' hk' => ?_, hloop⟩
        rcases List.mem_cons.mp hk' with rfl | hk'
        · have haddr : k'.virt < uintMod := Nat.lt_of_lt_of_le (Nat.lt_add_of_pos_right hsize) htop
          exact hlast.present haddr (hmaps.inside _ haddr (inRange_self hva (Nat.le_refl _)
            (Nat.lt_add_of_pos_right hsize))).1
        · exact hpresent k' hk'
      · refine .inr ⟨fun j hj => (hpde j).mp (hwithin j hj), ?_, hempty, hloop⟩
        obtain ⟨k', hk', hmissing⟩ := hmissing
        exact ⟨k', List.mem_cons_of_mem _ hk', hmissing⟩

theorem absent_empty (pgdir : Nat) : (PgDir.mk pgdir fun _ => none).absent = npdEntries := by
  unfold PgDir.absent
  simp

theorem tables_empty (pgdir pg : Nat) : (PgDir.mk pgdir fun _ => none).tables pg = one pgdir pg := by
  unfold PgDir.tables one
  simp

theorem entry_empty (pgdir b : Nat) : (PgDir.mk pgdir fun _ => none).entry b = .zero := rfl

theorem absent_kernelTables (h : ∀ j, d.pde j ≠ none ↔ KernelTable j) :
    d.absent + kernelPages = npdEntries + 1 := by
  have hsum : d.absent = ∑ j ∈ Finset.range npdEntries, if KernelTable j then 0 else 1 := by
    unfold PgDir.absent
    apply Finset.sum_congr rfl
    intro j _
    by_cases hj : KernelTable j
    · rw [if_pos hj, if_neg ((h j).mpr hj)]
    · rw [if_neg hj, if_pos (not_not.mp fun hne => hj ((h j).mp hne))]
  rw [hsum]
  decide +kernel

theorem absent_lt_of_missing (hsub : ∀ j, d'.pde j ≠ none → d.pde j ≠ none) (hj : j < npdEntries)
    (hnone : d'.pde j = none) (hsome : d.pde j ≠ none) : d.absent < d'.absent := by
  unfold PgDir.absent
  apply Finset.sum_lt_sum
  · intro i _
    by_cases hi : d.pde i = none
    · rw [if_pos hi, if_pos (not_not.mp fun hne => hsub i hne hi)]
    · rw [if_neg hi]
      exact Nat.zero_le _
  · refine ⟨j, Finset.mem_range.mpr hj, ?_⟩
    rw [if_neg hsome, if_pos hnone]
    exact Nat.zero_lt_one

/-- A directory with the kernel's page tables only. -/
def kernelTables : PgDir := ⟨0, fun j => if KernelTable j then some ⟨0, fun _ => .zero⟩ else none⟩

theorem kernelTables_pde (j : Nat) : kernelTables.pde j ≠ none ↔ KernelTable j := by
  unfold kernelTables
  dsimp only
  by_cases hj : KernelTable j
  · rw [if_pos hj]
    simp [hj]
  · rw [if_neg hj]
    simp [hj]

/-- A new directory with kernel entries only, built from pages of the free list. -/
structure KernelDir (m : Mem) (d : PgDir) (m' : Mem) : Prop where
  entry_eq : ∀ b, b < kernBase → d.entry b = .zero
  kernel : ∀ b, b < uintMod → (d.entry b).present = true → (d.entry b).perm.user = false
  moved : ∀ pg, d.tables pg + m'.free.count pg = m.free.count pg
  spare : d.absent + m.free.length = npdEntries + 1 + m'.free.length
  takes : ∃ l, Takes m l m'

theorem setupkvm_outcome (L : Layout) (m : Mem) :
    (m.free = [] ∧ setupkvm L m = .ok (none, m)) ∨
      ∃ d m', KernelDir m d m' ∧
        (((∀ j, d.pde j ≠ none ↔ KernelTable j) ∧ (d.entry kernBase).present = true ∧
            setupkvm L m = .ok (some d, m')) ∨
          (kernelTables.absent < d.absent ∧ m'.free = [] ∧
            setupkvm L m = (do
              let m ← freevm L d m'
              return (none, m)))) := by
  unfold setupkvm
  cases hk : kalloc m with
  | none => exact .inl ⟨kalloc_none hk, rfl⟩
  | some page =>
    obtain ⟨pgdir, m1⟩ := page
    obtain ⟨hfree, hcount⟩ := kalloc_some hk
    dsimp only
    rw [if_neg (by decide)]
    obtain ⟨d, m', hkernel, hcase⟩ := setupkvmLoop_outcome L (m := m1.memset pgdir 0 pgSize) (kmap_ascending L)
      (fun k => kmap_user L) (Nat.le_refl _) (d := ⟨pgdir, fun _ => none⟩) (fun b _ _ => by rw [entry_empty])
    have htables : ∀ j, ((PgDir.mk pgdir fun _ => none).pde j ≠ none ∨ ∃ k ∈ kmap L, k.Covers j) ↔
        KernelTable j := by
      intro j
      rw [kmap_covers]
      simp
    have hdir : KernelDir m d m' := by
      refine ⟨hkernel.entry_eq, fun b hb hpresent => ?_, fun pg => ?_, ?_, ?_⟩
      · rcases hkernel.kernel b hb with heq | ⟨-, huser⟩
        · rw [heq] at hpresent
          cases hpresent
        · exact huser
      · have hmoved : d.tables pg + m'.free.count pg = _ + m1.free.count pg := hkernel.moved pg
        rw [tables_empty] at hmoved
        have hpage := hcount pg
        omega
      · have hspare : d.absent + m1.free.length = _ + m'.free.length := hkernel.spare
        rw [absent_empty] at hspare
        rw [hfree, List.length_cons]
        omega
      · obtain ⟨l, htakes⟩ := hkernel.takes
        exact ⟨[pgdir] ++ l, (memset_takes hk 0).trans htakes⟩
    refine .inr ⟨d, m', hdir, ?_⟩
    rcases hcase with ⟨hall, hpresent, hloop⟩ | ⟨hwithin, ⟨k, hk, j, hcovers, hnone⟩, hempty, hloop⟩
    · exact .inl ⟨fun j => (hall j).trans (htables j), hpresent _ List.mem_cons_self, hloop⟩
    have htable : KernelTable j := (kmap_covers L j).mp ⟨k, hk, hcovers⟩
    refine .inr ⟨?_, hempty, hloop⟩
    apply absent_lt_of_missing (j := j)
    · exact fun i hi => (kernelTables_pde i).mpr ((htables i).mp (hwithin i hi))
    · simp only [KernelTable, npdEntries] at htable ⊢
      omega
    · exact hnone
    · exact (kernelTables_pde j).mpr htable

section Setupkvm

variable {L : Layout} {m m' : Mem}

theorem setupkvm_some (h : setupkvm L m = .ok (some d, m')) :
    KernelDir m d m' ∧ (∀ j, d.pde j ≠ none ↔ KernelTable j) ∧ (d.entry kernBase).present = true := by
  rcases setupkvm_outcome L m with ⟨-, heq⟩ | ⟨d1, m1, hdir, ⟨hpde, hpresent, heq⟩ | ⟨-, -, heq⟩⟩
  · rw [heq] at h
    cases h
  · rw [heq] at h
    cases h
    exact ⟨hdir, hpde, hpresent⟩
  · rw [heq] at h
    obtain ⟨_, -, hret⟩ := bind_eq_ok.mp h
    cases hret

theorem setupkvm_none (h : setupkvm L m = .ok (none, m')) :
    (∀ pg, m'.free.count pg = m.free.count pg) ∧ (0 ∉ m.free → 0 ∉ m'.free) ∧ m.free.length < kernelPages := by
  rcases setupkvm_outcome L m with ⟨hempty, heq⟩ | ⟨d1, m1, hdir, ⟨-, -, heq⟩ | ⟨hmissing, hempty, heq⟩⟩
  · rw [heq] at h
    cases h
    refine ⟨fun _ => rfl, id, ?_⟩
    rw [hempty]
    decide
  · rw [heq] at h
    cases h
  rw [heq] at h
  obtain ⟨m2, hfree, hret⟩ := bind_eq_ok.mp h
  cases hret
  obtain ⟨hcount, hzero⟩ := freevm_ok hfree
  have hspare := hdir.spare
  have htotal := absent_kernelTables kernelTables_pde
  obtain ⟨l, htakes⟩ := hdir.takes
  rw [hempty, List.length_nil] at hspare
  refine ⟨fun pg => ?_, fun hz => hzero fun h0 => hz (htakes.subset h0), by omega⟩
  rw [hcount pg, ← hdir.moved pg]
  unfold holds
  rw [uses_eq_zero fun b hb => by rw [hdir.entry_eq b hb]]
  omega

theorem setupkvm_ok {r : Option PgDir} (h : setupkvm L m = .ok (r, m')) :
    (∀ d, r = some d → (∀ b, b < kernBase → d.entry b = .zero) ∧
      (∀ pg, d.tables pg + m'.free.count pg = m.free.count pg) ∧ (∀ pg ∈ m'.free, pg ∈ m.free) ∧
      d.absent + m.free.length = npdEntries + 1 + m'.free.length) ∧
    (r = none → (∀ pg, m'.free.count pg = m.free.count pg) ∧ (0 ∉ m.free → 0 ∉ m'.free) ∧
      m.free.length ≤ npdEntries) := by
  refine ⟨fun d hd => ?_, fun hr => ?_⟩
  · rw [hd] at h
    obtain ⟨hdir, -⟩ := setupkvm_some h
    obtain ⟨l, htakes⟩ := hdir.takes
    exact ⟨hdir.entry_eq, hdir.moved, fun pg => htakes.subset, hdir.spare⟩
  · rw [hr] at h
    obtain ⟨hcount, hzero, hshort⟩ := setupkvm_none h
    exact ⟨hcount, hzero, Nat.le_trans (Nat.le_of_lt hshort) (by decide)⟩

/-- `setupkvm` takes 65 pages, none of them for a page table of the user half; with fewer pages it
fails. -/
theorem setupkvm_pages {r : Option PgDir} (h : setupkvm L m = .ok (r, m')) :
    (∀ d, r = some d → m.free.length = m'.free.length + kernelPages ∧ ∀ j, d.pde j ≠ none ↔ KernelTable j) ∧
    (r = none → m.free.length < kernelPages) := by
  refine ⟨fun d hd => ?_, fun hr => ?_⟩
  · rw [hd] at h
    obtain ⟨hdir, hpde, -⟩ := setupkvm_some h
    have habsent := absent_kernelTables hpde
    have hspare := hdir.spare
    exact ⟨by omega, hpde⟩
  · rw [hr] at h
    exact (setupkvm_none h).2.2

end Setupkvm

end Xv6.Vm
