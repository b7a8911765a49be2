import Xv6.Vm.KernelTables

/-! # When memory suffices

A directory has room for some pages if the free list covers them and a page table for every
directory entry that has none. Then `setupkvm` and `allocuvm` succeed, and what they take is
what the room shrinks by. `freevm` succeeds on a directory of pages that `kfree` accepts.
-/

namespace Xv6.Vm

open Lib

variable {d : PgDir} {m : Mem} {c a oldsz newsz : Nat} {L : Layout}

/-- The free list covers the missing page tables and `c` pages more. -/
def Room (d : PgDir) (m : Mem) (c : Nat) : Prop := d.absent + c ≤ m.free.length

variable {m' : Mem} {lo hi : Nat}

theorem Room.kalloc (h : Room d m (c + 1)) : ∃ pa m', kalloc m = some (pa, m') ∧ Room d m' c := by
  unfold Room at *
  unfold Vm.kalloc
  cases hfree : m.free with
  | nil =>
    rw [hfree, List.length_nil] at h
    omega
  | cons pa free =>
    rw [hfree, List.length_cons] at h
    exact ⟨pa, { m with free := free }, rfl, by dsimp only; omega⟩

theorem Room.maps {d' : PgDir} {x : Pte} (h : Room d m c) (hmap : MapsPage d m a x d' m') :
    Room d' m' c := by
  have hspare := hmap.spare
  unfold Room at *
  omega

theorem mappage_total (pa : Nat) (perm : Perm) (hvacant : (d.entry a).present = false) (hroom : Room d m c) :
    ∃ d' m', mappage d a pa perm m = .ok (true, d', m') := by
  refine mappage_done hvacant ?_ pa perm
  by_contra hno
  rw [not_or, not_not, not_not] at hno
  have hpos := absent_pos hno.1
  unfold Room at hroom
  rw [hno.2, List.length_nil] at hroom
  omega

theorem mappage_remap (h : (d.entry a).present = true) (pa : Nat) (perm : Perm) (m : Mem) :
    mappage d a pa perm m = .error "remap" := by
  have hwalk : walkpgdir d a m = some (d, m) := by
    unfold walkpgdir
    cases hpde : d.pde (pdx a) with
    | none =>
      unfold PgDir.entry at h
      rw [walk_eq_none_iff.mpr hpde] at h
      cases h
    | some t => rfl
  unfold mappage
  rw [hwalk]
  exact if_pos h

/-! ## `setupkvm` -/

theorem setupkvm_total (L : Layout) (h : npdEntries + 1 + c ≤ m.free.length) :
    ∃ d m', setupkvm L m = .ok (some d, m') ∧ Room d m' c := by
  rcases setupkvm_outcome L m with ⟨hempty, -⟩ | ⟨d, m', hdir, ⟨-, -, heq⟩ | ⟨hmissing, hempty, -⟩⟩
  · rw [hempty, List.length_nil] at h
    omega
  · refine ⟨d, m', heq, ?_⟩
    have hspare := hdir.spare
    unfold Room
    omega
  · have hspare := hdir.spare
    rw [hempty, List.length_nil] at hspare
    omega

/-! ## `allocuvm` -/

theorem rounds_lt (ha : pgSize ∣ a) (hlo : pgRoundUp oldsz ≤ a) (hlt : a < newsz) :
    (a + pgSize - 1 - pgRoundUp oldsz) / pgSize < (newsz + pgSize - 1 - pgRoundUp oldsz) / pgSize := by
  obtain ⟨x, hx⟩ := ha
  obtain ⟨y, hy⟩ := pgRoundUp_dvd oldsz
  rw [hy] at hlo ⊢
  simp only [pgSize] at *
  omega

theorem allocuvm_total (hnew : newsz < kernBase) (hgrows : oldsz ≤ newsz)
    (hvacant : ∀ b, b < uintMod → InRange (pgRoundUp oldsz) newsz b → (d.entry b).present = false)
    (hroom : Room d m (c + (newsz + pgSize - 1 - pgRoundUp oldsz) / pgSize)) :
    ∃ d' m', allocuvm L d oldsz newsz m = .ok (newsz, d', m') ∧ Room d' m' c ∧
      (∀ b, b < uintMod → InRange (pgRoundUp oldsz) newsz b → ∃ pa, d'.entry b = ⟨pa, true, .wu⟩) ∧
      ∀ b, b < uintMod → ¬ InRange (pgRoundUp oldsz) newsz b → d'.entry b = d.entry b := by
  obtain ⟨a, l, d1, m1, halloc, hlo, ha, hpast, hends⟩ := allocuvm_outcome L d m hnew hgrows
  have hspare := halloc.spare
  -- before the end a page is left for each page to come
  have hleft : a < newsz → d1.absent < m1.free.length := by
    intro hlt
    have hrounds := rounds_lt ha hlo hlt
    unfold Room at hroom
    omega
  generalize allocuvm L d oldsz newsz m = res at hends ⊢
  cases hends with
  | done hdone =>
    have hall := halloc.upTo hlo (pgRoundUp_dvd oldsz) ha hpast hdone
    refine ⟨d1, m1, rfl, ?_, fun b hb hin => ?_, hall.reshapes.kept⟩
    · have hspent := hall.spare
      unfold Room at hroom ⊢
      omega
    · obtain ⟨pa, -, hentry, -⟩ := hall.filled b hb hin
      exact ⟨pa, hentry⟩
  | remap hlt hpresent => exact absurd hpresent (halloc.not_remap ha hlo hnew hlt hvacant)
  | page hlt hempty =>
    have hmore := hleft hlt
    rw [hempty, List.length_nil] at hmore
    omega
  | table hlt hk hnone hempty =>
    have hmore := hleft hlt
    have hpos := absent_pos hnone
    rw [(kalloc_some hk).1, hempty, List.length_singleton] at hmore
    omega

/-- The page tables that the addresses from `lo` to `hi` lack. -/
def PgDir.lacks (d : PgDir) (lo hi : Nat) : Nat :=
  ∑ j ∈ Finset.range npdEntries, if d.pde j = none ∧ Spans lo hi j then 1 else 0

/-- The free pages that mapping the addresses from `lo` to `hi` takes. -/
def PgDir.needs (d : PgDir) (lo hi : Nat) : Nat := (hi + pgSize - 1 - lo) / pgSize + d.lacks lo hi

theorem Allocated.length {d' : PgDir} {l : List Nat} (h : Allocated lo hi d m l d' m') :
    m.free.length = m'.free.length + d.needs lo hi := by
  have hlacks : d'.absent + d.lacks lo hi = d.absent := by
    unfold PgDir.absent PgDir.lacks
    rw [← Finset.sum_add_distrib]
    apply Finset.sum_congr rfl
    intro j _
    simp only [h.pde j]
    by_cases hj : d.pde j = none <;> by_cases hin : Spans lo hi j <;> simp [hj, hin]
  have hspare := h.spare
  unfold PgDir.needs
  omega

theorem Spans.mono {j : Nat} (h : Spans lo a j) (hle : a ≤ hi) : Spans lo hi j := by
  unfold Spans at *
  omega

theorem lacks_mono (d : PgDir) (lo : Nat) (h : a ≤ hi) : d.lacks lo a ≤ d.lacks lo hi := by
  apply Finset.sum_le_sum
  intro j _
  split
  · rename_i hin
    rw [if_pos ⟨hin.1, hin.2.mono h⟩]
  · exact Nat.zero_le _

theorem lacks_lt (hlo : lo ≤ a) (h : a < hi) (ha : a < kernBase) (hnone : d.pde (pdx a) = none)
    (hnew : ¬ Spans lo a (pdx a)) : d.lacks lo a < d.lacks lo hi := by
  apply Finset.sum_lt_sum
  · intro j _
    split
    · rename_i hin
      rw [if_pos ⟨hin.1, hin.2.mono (Nat.le_of_lt h)⟩]
    · exact Nat.zero_le _
  · refine ⟨pdx a, Finset.mem_range.mpr (pdx_lt a), ?_⟩
    rw [if_neg fun hin => hnew hin.2, if_pos]
    · exact Nat.zero_lt_one
    · refine ⟨hnone, ?_⟩
      simp only [Spans, pdx, kernBase] at *
      omega

theorem allocuvm_needs {r : Nat} {d' : PgDir} (hnew : newsz < kernBase) (hgrows : oldsz ≤ newsz)
    (h : allocuvm L d oldsz newsz m = .ok (r, d', m')) :
    (r = newsz ∧ d.needs (pgRoundUp oldsz) newsz ≤ m.free.length) ∨
      (r = 0 ∧ m.free.length < d.needs (pgRoundUp oldsz) newsz) := by
  obtain ⟨a, l, d1, m1, halloc, hlo, ha, hpast, hends⟩ := allocuvm_outcome L d m hnew hgrows
  have hlen := halloc.length
  rw [h] at hends
  generalize hres : (Except.ok (r, d', m') : Except String (Nat × PgDir × Mem)) = res at hends
  cases hends with
  | done hdone =>
    cases hres
    have hall := (halloc.upTo hlo (pgRoundUp_dvd oldsz) ha hpast hdone).length
    exact .inl ⟨rfl, by omega⟩
  | remap => cases hres
  | page hlt hempty =>
    obtain ⟨_, -, hret⟩ := bind_eq_ok.mp hres.symm
    cases hret
    have hmore := rounds_lt ha hlo hlt
    have hmono := lacks_mono d (pgRoundUp oldsz) (Nat.le_of_lt hlt)
    rw [hempty, List.length_nil] at hlen
    unfold PgDir.needs at *
    exact .inr ⟨rfl, by omega⟩
  | table hlt hk hnone hempty =>
    obtain ⟨_, -, hrest⟩ := bind_eq_ok.mp hres.symm
    obtain ⟨_, -, hret⟩ := bind_eq_ok.mp hrest
    cases hret
    have hmore := rounds_lt ha hlo hlt
    obtain ⟨hnone', hfirst⟩ := (halloc.pde (pdx a)).mp (walk_eq_none_iff.mp hnone)
    have hmono := lacks_lt hlo hlt (Nat.lt_trans hlt hnew) hnone' hfirst
    rw [(kalloc_some hk).1, hempty, List.length_singleton] at hlen
    unfold PgDir.needs at *
    exact .inr ⟨rfl, by omega⟩

theorem allocuvm_remap (hnew : newsz < kernBase) (hgrows : oldsz ≤ newsz) (hlt : pgRoundUp oldsz < newsz)
    (h : (d.entry (pgRoundUp oldsz)).present = true) (hroom : Room d m (c + 1)) :
    allocuvm L d oldsz newsz m = .error "remap" := by
  obtain ⟨mem, m1, hk, _⟩ := hroom.kalloc
  obtain ⟨n, hn⟩ : ∃ n, (newsz + pgSize - 1 - pgRoundUp oldsz) / pgSize = n + 1 := by
    refine ⟨(newsz + pgSize - 1 - pgRoundUp oldsz) / pgSize - 1, ?_⟩
    simp only [pgSize] at *
    omega
  unfold allocuvm
  rw [if_neg (by omega), if_neg (by omega)]
  dsimp only
  rw [hn]
  simp only [allocuvmLoop]
  rw [hk]
  dsimp only
  rw [mappages_one (pgRoundUp_dvd oldsz),
    mappage_remap h]
  rfl

/-! ## `freevm` -/

def Layout.Accepts (L : Layout) (pa : Nat) : Prop :=
  p2v pa % pgSize = 0 ∧ L.kend ≤ p2v pa ∧ v2p (p2v pa) < physTop

instance (L : Layout) (pa : Nat) : Decidable (L.Accepts pa) := inferInstanceAs (Decidable (_ ∧ _))

theorem kfree_total {pa : Nat} (h : L.Accepts pa) (m : Mem) : ∃ m', kfree L m pa = .ok m' := by
  obtain ⟨haligned, hend, htop⟩ := h
  unfold kfree
  rw [if_neg (by omega)]
  exact ⟨_, rfl⟩

/-- Every page from `lo` to `hi` is one that `kfree` accepts. -/
def PgDir.Freeable (L : Layout) (d : PgDir) (lo hi : Nat) : Prop :=
  ∀ b, b < kernBase → InRange lo hi b → (d.entry b).present = true →
    (d.entry b).addr ≠ 0 ∧ L.Accepts (d.entry b).addr

theorem PgDir.Freeable.mono {b : Nat} (h : d.Freeable L lo hi) (hlo : lo ≤ a) (hhi : b ≤ hi) :
    d.Freeable L a b :=
  fun b hb hin => h b hb ⟨Nat.le_trans hlo hin.1, Nat.lt_of_lt_of_le hin.2 hhi⟩

theorem PgDir.Freeable.page {b : Nat} (h : d.Freeable L 0 kernBase) (hb : b < kernBase)
    (hpresent : (d.entry b).present = true) : (d.entry b).addr ≠ 0 ∧ L.Accepts (d.entry b).addr :=
  h b hb ⟨Nat.zero_le _, Nat.lt_of_le_of_lt (Nat.div_mul_le_self ..) hb⟩ hpresent

theorem deallocuvmLoop_total (fuel : Nat) (hhi : hi ≤ kernBase) (ha : pgSize ∣ a)
    (hfuel : hi ≤ a + fuel * pgSize) (hd : d.Freeable L a hi) :
    ∃ d' m', deallocuvmLoop L hi (fuel + 1) a d m = .ok (d', m') ∧ d'.page = d.page ∧
      ∀ i, (d'.pde i).map PgTab.page = (d.pde i).map PgTab.page := by
  induction fuel generalizing a d m with
  | zero =>
    simp only [deallocuvmLoop]
    rw [if_neg (by omega)]
    exact ⟨d, m, rfl, rfl, fun _ => rfl⟩
  | succ fuel ih =>
    have hfuel' : hi ≤ a + pgSize + fuel * pgSize := by
      simp only [pgSize] at *
      omega
    rcases deallocuvmLoop_succ L (fuel + 1) d m hhi ha with
      ⟨-, heq⟩ | ⟨a', hle, ha', -, heq⟩ | ⟨hlt, hwalk, hpresent, heq⟩
    · exact ⟨d, m, heq, rfl, fun _ => rfl⟩
    · rw [heq]
      exact ih ha' (Nat.le_trans hfuel' (Nat.add_le_add_right hle _))
        (hd.mono (Nat.le_trans (Nat.le_add_right ..) hle) (Nat.le_refl hi))
    obtain ⟨hne, haccepts⟩ := hd a (Nat.lt_of_lt_of_le hlt hhi) (inRange_self ha (Nat.le_refl a) hlt) hpresent
    obtain ⟨m1, hfree⟩ := kfree_total haccepts m
    have hd1 : (d.set a .zero).Freeable L (a + pgSize) hi := by
      intro b hb hin
      rw [entry_set hwalk]
      split
      · intro hzero
        cases hzero
      · exact hd.mono (Nat.le_add_right ..) (Nat.le_refl hi) b hb hin
    obtain ⟨d2, m2, hloop, hpage, htabs⟩ := ih (m := m1) (Nat.dvd_add ha (Nat.dvd_refl _)) hfuel' hd1
    rw [heq, if_neg hne, hfree]
    refine ⟨d2, m2, hloop, ?_, fun i => ?_⟩
    · rw [hpage, set_page]
    · rw [htabs i, set_pde_page]

theorem deallocuvm_total (m : Mem) (hold : oldsz ≤ kernBase) (hd : d.Freeable L (pgRoundUp newsz) oldsz) :
    ∃ r d' m', deallocuvm L d oldsz newsz m = .ok (r, d', m') := by
  unfold deallocuvm
  split
  · exact ⟨oldsz, d, m, rfl⟩
  · obtain ⟨d', m', hloop, -⟩ := deallocuvmLoop_total (m := m) (oldsz / pgSize + 1) hold (pgRoundUp_dvd newsz)
      (by simp only [pgSize]; omega) hd
    rw [hloop]
    exact ⟨newsz, d', m', rfl⟩

/-- The pages of the free list are ones that `kfree` accepts. -/
def Mem.Freeable (L : Layout) (m : Mem) : Prop := ∀ pa ∈ m.free, pa ≠ 0 ∧ L.Accepts pa

theorem allocuvm_ends
    (hvacant : ∀ b, b < uintMod → InRange (pgRoundUp oldsz) newsz b → (d.entry b).present = false)
    (hm : m.Freeable L) : ∃ r d' m', allocuvm L d oldsz newsz m = .ok (r, d', m') := by
  by_cases hrange : newsz < kernBase ∧ oldsz ≤ newsz
  · obtain ⟨hnew, hgrows⟩ := hrange
    obtain ⟨a, l, d1, m1, halloc, hlo, ha, -, hends⟩ := allocuvm_outcome L d m hnew hgrows
    -- the pages it gives back are those it has taken
    have hd1 : d1.Freeable L (pgRoundUp oldsz) newsz := by
      intro b hb hrange hpresent
      by_cases hin : InRange (pgRoundUp oldsz) a b
      · obtain ⟨pa, hpa, hentry, -⟩ := halloc.filled b (lt_uintMod hb) hin
        rw [hentry]
        exact hm pa (halloc.takes.mem_free hpa)
      · rw [halloc.reshapes.kept b (lt_uintMod hb) hin, hvacant b (lt_uintMod hb) hrange] at hpresent
        cases hpresent
    generalize allocuvm L d oldsz newsz m = res at hends ⊢
    cases hends with
    | done => exact ⟨newsz, d1, m1, rfl⟩
    | remap hlt hpresent => exact absurd hpresent (halloc.not_remap ha hlo hnew hlt hvacant)
    | page =>
      obtain ⟨r, d2, m2, hdealloc⟩ := deallocuvm_total m1 (Nat.le_of_lt hnew) hd1
      rw [hdealloc]
      exact ⟨0, d2, m2, rfl⟩
    | table hlt hk =>
      obtain ⟨r, d2, m2, hdealloc⟩ := deallocuvm_total _ (Nat.le_of_lt hnew) hd1
      have haccepts := (hm _ (halloc.takes.subset (by rw [(kalloc_some hk).1]; exact List.mem_cons_self))).2
      obtain ⟨m3, hback⟩ := kfree_total haccepts m2
      rw [hdealloc, ok_bind]
      dsimp only
      rw [hback]
      exact ⟨0, d2, m3, rfl⟩
  · unfold allocuvm
    split
    · exact ⟨0, d, m, rfl⟩
    · split
      · exact ⟨oldsz, d, m, rfl⟩
      · omega

theorem Room.freevm {old : PgDir} (h : Room d m c) (hfree : freevm L old m = .ok m') :
    Room d m' c := by
  have hle : m.free.length ≤ m'.free.length := by
    apply List.Subperm.length_le
    rw [List.subperm_iff_count]
    intro pg
    rw [(freevm_ok hfree).1 pg]
    exact Nat.le_add_left _ _
  exact Nat.le_trans h hle

theorem freePgTabs_total (is : List Nat) (h : ∀ i pg, (d.pde i).map PgTab.page = some pg → L.Accepts pg) :
    ∃ m', freePgTabs L d is m = .ok m' := by
  induction is generalizing m with
  | nil => exact ⟨m, rfl⟩
  | cons i is ih =>
    simp only [freePgTabs]
    cases hpde : d.pde i with
    | none => exact ih
    | some t =>
      obtain ⟨m1, hfree⟩ := kfree_total (h i t.page (by rw [hpde]; rfl)) m
      obtain ⟨m2, hrest⟩ := ih (m := m1)
      dsimp only
      rw [hfree]
      exact ⟨m2, hrest⟩

theorem freevm_total (huser : d.Freeable L 0 kernBase)
    (htabs : ∀ i pg, (d.pde i).map PgTab.page = some pg → L.Accepts pg) (hpage : L.Accepts d.page) (m : Mem) :
    ∃ m', freevm L d m = .ok m' := by
  obtain ⟨d1, m1, hloop, hpage1, htabs1⟩ := deallocuvmLoop_total (m := m)
    (kernBase / pgSize + 1) (Nat.le_refl kernBase) (pgRoundUp_dvd 0) (by decide) huser
  obtain ⟨m2, hfree⟩ := freePgTabs_total (d := d1) (m := m1) (List.range npdEntries)
    fun i pg hi => htabs i pg (by rw [← htabs1 i]; exact hi)
  obtain ⟨m3, hlast⟩ := kfree_total (by rw [hpage1]; exact hpage : L.Accepts d1.page) m2
  refine ⟨m3, ?_⟩
  unfold freevm deallocuvm
  rw [if_neg (by decide), hloop]
  dsimp only [bind, Except.bind, pure, Except.pure]
  rw [hfree]
  exact hlast

end Xv6.Vm
