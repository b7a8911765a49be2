import Xv6.Vm.Contents

/-! # Growing and shrinking a range of addresses

`deallocuvm`, `allocuvm` and `freevm`: each changes entries in a range of addresses only and loses
or doubles no page, whether it succeeds or runs out of memory. What it writes to are the pages that
it takes or gives back.
-/

namespace Xv6.Vm

open Lib

variable {lo hi a b pa newsz oldsz : Nat} {d d' : PgDir} {m m1 m2 m' : Mem} {L : Layout} {l : List Nat}

/-- The page of `b` starts in the range from `lo` to `hi`. -/
def InRange (lo hi b : Nat) : Prop := lo ≤ pgRoundDown b ∧ pgRoundDown b < hi

/-- Entries change only in a range, and every page is held as often as before. -/
structure Reshapes (lo hi : Nat) (d : PgDir) (m : Mem) (d' : PgDir) (m' : Mem) : Prop where
  kept : ∀ b, b < uintMod → ¬ InRange lo hi b → d'.entry b = d.entry b
  walk : ∀ b, d.walk b ≠ none → d'.walk b ≠ none
  conserved : ∀ pg, holds d' m' pg = holds d m pg
  nonzero : 0 ∉ m.free → 0 ∉ m'.free

variable {d1 d2 : PgDir} {lo' x fuel : Nat}

theorem Reshapes.refl (lo hi : Nat) (d : PgDir) (m : Mem) : Reshapes lo hi d m d m :=
  ⟨fun _ _ _ => rfl, fun _ h => h, fun _ => rfl, fun h => h⟩

theorem Reshapes.trans (h1 : Reshapes lo hi d m d1 m1) (h2 : Reshapes lo hi d1 m1 d2 m2) :
    Reshapes lo hi d m d2 m2 where
  kept := fun b hb hr => (h2.kept b hb hr).trans (h1.kept b hb hr)
  walk := fun b hb => h2.walk b (h1.walk b hb)
  conserved := fun pg => (h2.conserved pg).trans (h1.conserved pg)
  nonzero := fun h => h2.nonzero (h1.nonzero h)

theorem Reshapes.mono {hi' : Nat} (h : Reshapes lo hi d m d' m')
    (hsub : ∀ b, InRange lo hi b → InRange lo' hi' b) : Reshapes lo' hi' d m d' m' where
  kept := fun b hb hr => h.kept b hb fun hin => hr (hsub b hin)
  walk := h.walk
  conserved := h.conserved
  nonzero := h.nonzero

theorem samePage_of_roundDown (hb : b < uintMod) (h : pgRoundDown b = a) : SamePage b a := by
  rw [samePage_iff hb]
  · rw [← h, pgRoundDown, Nat.mul_div_cancel _ (by decide)]
  · rw [← h, pgRoundDown]
    exact Nat.lt_of_le_of_lt (Nat.div_mul_le_self b pgSize) hb

theorem samePage_iff_roundDown (ha : pgSize ∣ a) (hlt : a < uintMod) (hb : b < uintMod) :
    SamePage b a ↔ pgRoundDown b = a := by
  refine ⟨fun hsame => ?_, samePage_of_roundDown hb⟩
  rw [pgRoundDown, (samePage_iff hb hlt).mp hsame, Nat.div_mul_cancel ha]

theorem MapsPage.entry_round {x : Pte} (h : MapsPage d m a x d' m') (ha : pgSize ∣ a) (hlt : a < uintMod)
    (hb : b < uintMod) : d'.entry b = if pgRoundDown b = a then x else d.entry b := by
  rw [h.entry_eq]
  exact if_congr (samePage_iff_roundDown ha hlt hb) rfl rfl

theorem entry_samePage (h : SamePage b a) : d.entry b = d.entry a := by
  unfold PgDir.entry PgDir.walk
  rw [h.1, h.2]

theorem inRange_congr (ha : a < uintMod) (hb : b < uintMod) (h : SamePage b a) :
    InRange lo hi b ↔ InRange lo hi a := by
  unfold InRange pgRoundDown
  rw [(samePage_iff hb ha).mp h]

theorem inRange_self (ha : pgSize ∣ a) (hlo : lo ≤ a) (hhi : a < hi) : InRange lo hi a := by
  unfold InRange
  rw [pgRoundDown_of_dvd ha]
  exact ⟨hlo, hhi⟩

theorem inRange_split (ha : pgSize ∣ a) (h : InRange a hi b) :
    pgRoundDown b = a ∨ InRange (a + pgSize) hi b := by
  obtain ⟨c, hc⟩ := ha
  simp only [InRange, pgRoundDown, pgSize] at *
  omega

theorem inRange_next (ha : pgSize ∣ a) (hlo : lo ≤ a) :
    InRange lo (a + pgSize) b ↔ pgRoundDown b = a ∨ InRange lo a b := by
  obtain ⟨c, rfl⟩ := ha
  simp only [InRange, pgRoundDown, pgSize] at *
  omega

theorem lt_uintMod (h : a < kernBase) : a < uintMod := by
  simp only [kernBase, uintMod] at *
  omega

/-- A page is mapped at least as often as before if it was not mapped in the range. -/
theorem Reshapes.uses_le (h : Reshapes lo hi d m d' m') {pg : Nat}
    (hpg : ∀ b, b < kernBase → InRange lo hi b → (d.entry b).uses pg = 0) : d.uses pg ≤ d'.uses pg := by
  unfold PgDir.uses
  apply Finset.sum_le_sum
  intro v hv
  have hlt : v * pgSize < kernBase := by
    have := Finset.mem_range.mp hv
    simp only [userPages, kernBase, pgSize] at *
    omega
  by_cases hr : InRange lo hi (v * pgSize)
  · rw [hpg _ hlt hr]
    exact Nat.zero_le _
  · rw [h.kept _ (lt_uintMod hlt) hr]

theorem Reshapes.giveBack (h : Reshapes lo hi d m1 d' m2) (hfree : m.free = pa :: m1.free)
    (hback : kfree L m2 pa = .ok m') : Reshapes lo hi d m d' m' := by
  obtain ⟨hne, hcons, hone⟩ := kfree_ok hback
  refine ⟨h.kept, h.walk, fun pg => ?_, fun hz => ?_⟩
  · have hc := h.conserved pg
    unfold holds at hc ⊢
    rw [hone pg, hfree, List.count_cons]
    simp only [beq_iff_eq, one]
    omega
  · rw [hfree, List.mem_cons, not_or] at hz
    rw [hcons, List.mem_cons, not_or]
    exact ⟨hz.1, h.nonzero hz.2⟩

/-! ## `deallocuvm` -/

theorem pgAddr_next (ha : a < kernBase) : pgAddr (pdx a + 1) 0 0 = (a / 2 ^ 22 + 1) * 2 ^ 22 := by
  simp only [pgAddr, pdx, kernBase, uintMod, Nat.reducePow] at *
  omega

theorem kfree_ram (h : kfree L m pa = .ok m') (x : Nat) : m'.ram x = if OnPage pa x then 1 else m.ram x := by
  unfold kfree at h
  dsimp only at h
  split at h
  · cases h
  · cases h
    rfl

/-- One round of `deallocuvm`: it is done; or nothing is present up to a later page; or the page is
cleared and freed. -/
theorem deallocuvmLoop_succ (L : Layout) (fuel : Nat) (d : PgDir) (m : Mem) (hhi : hi ≤ kernBase)
    (ha : pgSize ∣ a) : (hi ≤ a ∧ deallocuvmLoop L hi (fuel + 1) a d m = .ok (d, m)) ∨
    (∃ a', a + pgSize ≤ a' ∧ pgSize ∣ a' ∧ (∀ b, b < uintMod → InRange a a' b → (d.entry b).present = false) ∧
      deallocuvmLoop L hi (fuel + 1) a d m = deallocuvmLoop L hi fuel a' d m) ∨
    (a < hi ∧ d.walk a ≠ none ∧ (d.entry a).present = true ∧
      deallocuvmLoop L hi (fuel + 1) a d m = if (d.entry a).addr = 0 then .error "kfree"
        else kfree L m (d.entry a).addr >>= deallocuvmLoop L hi fuel (a + pgSize) (d.set a .zero)) := by
  simp only [deallocuvmLoop]
  by_cases hlt : a < hi
  · have hkern := Nat.lt_of_lt_of_le hlt hhi
    have hnext : (a + pgSize) % uintMod = a + pgSize := by
      simp only [kernBase, uintMod, pgSize] at *
      omega
    rw [if_pos hlt]
    cases hwalk : d.walk a with
    | none =>
      rw [pgAddr_next hkern]
      refine .inr (.inl ⟨(a / 2 ^ 22 + 1) * 2 ^ 22, ?_, ⟨(a / 2 ^ 22 + 1) * 2 ^ 10, by simp only [pgSize]; omega⟩,
        fun b hb hin => ?_, rfl⟩)
      · obtain ⟨c, rfl⟩ := ha
        simp only [pgSize]
        omega
      have hpdx : pdx b = pdx a := by
        simp only [InRange, pgRoundDown, pdx, pgSize, uintMod, Nat.reducePow] at *
        omega
      have hnone : d.walk b = none := by
        rw [walk_eq_none_iff] at hwalk ⊢
        rw [hpdx]
        exact hwalk
      unfold PgDir.entry
      rw [hnone]
      rfl
    | some pte =>
      have hentry : d.entry a = pte := by
        unfold PgDir.entry
        rw [hwalk]
        rfl
      dsimp only
      rw [← hentry, hnext]
      by_cases hpresent : (d.entry a).present = true
      · rw [if_pos hpresent]
        exact .inr (.inr ⟨hlt, Option.some_ne_none _, hpresent, rfl⟩)
      rw [if_neg hpresent]
      refine .inr (.inl ⟨a + pgSize, Nat.le_refl _, Nat.dvd_add ha (Nat.dvd_refl _), fun b hb hin => ?_, rfl⟩)
      have hround : pgRoundDown b = a := by
        obtain ⟨c, rfl⟩ := ha
        simp only [InRange, pgRoundDown, pgSize] at *
        omega
      rw [entry_samePage (samePage_of_roundDown hb hround)]
      exact Bool.eq_false_iff.mpr hpresent
  · rw [if_neg hlt]
    exact .inl ⟨Nat.le_of_not_lt hlt, rfl⟩

theorem clear_reshapes (hwalk : d.walk a ≠ none) (hpresent : (d.entry a).present = true) (hlt : a < kernBase)
    (hin : InRange lo hi a) (hfree : kfree L m (d.entry a).addr = .ok m') :
    Reshapes lo hi d m (d.set a .zero) m' := by
  obtain ⟨hne, hcons, hcount⟩ := kfree_ok hfree
  refine ⟨fun b hb hr => ?_, fun b hb => ?_, fun pg => ?_, fun hz => ?_⟩
  · rw [entry_set hwalk, if_neg]
    intro hsame
    exact hr ((inRange_congr (lt_uintMod hlt) hb hsame).mpr hin)
  · rw [walk_set hwalk]
    split
    · simp
    · exact hb
  · have hset := uses_clear d hlt pg
    have huse : (d.entry a).uses pg = one (d.entry a).addr pg := by
      simp [Pte.uses, one, hpresent]
    unfold holds
    rw [tables_set, hcount pg]
    omega
  · rw [hcons, List.mem_cons, not_or]
    exact ⟨fun heq => hne heq.symm, hz⟩

/-- The byte `x` lies on a page that is mapped in the range. -/
def Freed (lo hi : Nat) (d : PgDir) (x : Nat) : Prop :=
  ∃ b, b < uintMod ∧ InRange lo hi b ∧ (d.entry b).present = true ∧ OnPage (d.entry b).addr x

theorem freed_skip (hle : lo ≤ lo')
    (hvacant : ∀ b, b < uintMod → InRange lo lo' b → (d.entry b).present = false) :
    Freed lo hi d x ↔ Freed lo' hi d x := by
  constructor
  · intro h
    obtain ⟨b, hb, hin, hpresent, hx⟩ := h
    refine ⟨b, hb, ⟨?_, hin.2⟩, hpresent, hx⟩
    apply Nat.le_of_not_lt
    intro hbelow
    rw [hvacant b hb ⟨hin.1, hbelow⟩] at hpresent
    cases hpresent
  · intro h
    obtain ⟨b, hb, hin, hrest⟩ := h
    exact ⟨b, hb, ⟨Nat.le_trans hle hin.1, hin.2⟩, hrest⟩

theorem freed_clear (ha : pgSize ∣ a) (hlt : a < hi) (hhi : hi ≤ kernBase) (hwalk : d.walk a ≠ none)
    (hpresent : (d.entry a).present = true) :
    Freed a hi d x ↔ OnPage (d.entry a).addr x ∨ Freed (a + pgSize) hi (d.set a .zero) x := by
  have haddr := lt_uintMod (Nat.lt_of_lt_of_le hlt hhi)
  have hbehind : ∀ b, b < uintMod → InRange (a + pgSize) hi b → (d.set a .zero).entry b = d.entry b := by
    intro b hb hin
    rw [entry_set hwalk, if_neg]
    intro hsame
    have hle := hin.1
    rw [(samePage_iff_roundDown ha haddr hb).mp hsame] at hle
    exact absurd hle (Nat.not_le.mpr (Nat.lt_add_of_pos_right (by decide)))
  constructor
  · intro h
    obtain ⟨b, hb, hin, hpb, hx⟩ := h
    rcases inRange_split ha hin with heq | hin'
    · rw [entry_samePage (samePage_of_roundDown hb heq)] at hx
      exact .inl hx
    · rw [← hbehind b hb hin'] at hpb hx
      exact .inr ⟨b, hb, hin', hpb, hx⟩
  · intro h
    rcases h with hx | ⟨b, hb, hin, hpb, hx⟩
    · exact ⟨a, haddr, inRange_self ha (Nat.le_refl a) hlt, hpresent, hx⟩
    · rw [hbehind b hb hin] at hpb hx
      exact ⟨b, hb, ⟨Nat.le_trans (Nat.le_add_right ..) hin.1, hin.2⟩, hpb, hx⟩

/-- The pages from `lo` to `hi` are unmapped and freed; `kfree` has written ones to them. -/
structure Deallocated (lo hi : Nat) (d : PgDir) (m : Mem) (d' : PgDir) (m' : Mem) : Prop where
  reshapes : Reshapes lo hi d m d' m'
  gone : ∀ b, b < uintMod → InRange lo hi b → (d'.entry b).present = false
  tables : ∀ pg, d'.tables pg = d.tables pg
  ones : ∀ x, Freed lo hi d x → m'.ram x = 1
  ram : ∀ x, ¬ Freed lo hi d x → m'.ram x = m.ram x

theorem deallocuvmLoop_ok (hhi : hi ≤ kernBase) (ha : pgSize ∣ a)
    (h : deallocuvmLoop L hi fuel a d m = .ok (d', m')) : Deallocated a hi d m d' m' := by
  induction fuel generalizing a d m with
  | zero => cases h
  | succ fuel ih =>
    rcases deallocuvmLoop_succ L fuel d m hhi ha with
      ⟨hle, heq⟩ | ⟨a', hle, ha', hvacant, heq⟩ | ⟨hlt, hwalk, hpresent, heq⟩
    · rw [heq] at h
      cases h
      have hempty : ∀ b, ¬ InRange a hi b := fun b hin =>
        absurd (Nat.lt_of_le_of_lt hin.1 hin.2) (Nat.not_lt.mpr hle)
      refine ⟨.refl .., fun b _ hin => absurd hin (hempty b), fun _ => rfl, fun x hx => ?_, fun _ _ => rfl⟩
      obtain ⟨b, -, hin, -⟩ := hx
      exact absurd hin (hempty b)
    · rw [heq] at h
      have hlater := ih ha' h
      have hle' := Nat.le_trans (Nat.le_add_right a pgSize) hle
      refine ⟨hlater.reshapes.mono fun b hin => ⟨Nat.le_trans hle' hin.1, hin.2⟩, fun b hb hin => ?_,
        hlater.tables, fun x hx => ?_, fun x hx => ?_⟩
      · by_cases hbehind : InRange a' hi b
        · exact hlater.gone b hb hbehind
        · rw [hlater.reshapes.kept b hb hbehind]
          exact hvacant b hb ⟨hin.1, Nat.lt_of_not_le fun hge => hbehind ⟨hge, hin.2⟩⟩
      · exact hlater.ones x ((freed_skip hle' hvacant).mp hx)
      · exact hlater.ram x fun hx' => hx ((freed_skip hle' hvacant).mpr hx')
    · rw [heq] at h
      split at h
      · cases h
      obtain ⟨m1, hfree, hrest⟩ := bind_eq_ok.mp h
      have hlater := ih (Nat.dvd_add ha (Nat.dvd_refl _)) hrest
      have hclear : Reshapes a hi d m (d.set a .zero) m1 := clear_reshapes hwalk hpresent
        (Nat.lt_of_lt_of_le hlt hhi) (inRange_self ha (Nat.le_refl a) hlt) hfree
      have hsplit := fun x => freed_clear (x := x) ha hlt hhi hwalk hpresent
      refine ⟨hclear.trans (hlater.reshapes.mono fun b hin => ⟨Nat.le_trans (Nat.le_add_right ..) hin.1, hin.2⟩),
        fun b hb hin => ?_, fun pg => ?_, fun x hx => ?_, fun x hx => ?_⟩
      · rcases inRange_split ha hin with hround | hbehind
        · have hself : ¬ InRange (a + pgSize) hi b := by
            intro hin'
            have hge := hin'.1
            simp only [pgSize] at *
            omega
          rw [hlater.reshapes.kept b hb hself, entry_set hwalk,
            if_pos (samePage_of_roundDown hb hround)]
        · exact hlater.gone b hb hbehind
      · rw [hlater.tables, tables_set]
      · by_cases hlast : Freed (a + pgSize) hi (d.set a .zero) x
        · exact hlater.ones x hlast
        · rw [hlater.ram x hlast, kfree_ram hfree x, if_pos (((hsplit x).mp hx).resolve_right hlast)]
      · have hboth := not_or.mp fun hor => hx ((hsplit x).mpr hor)
        rw [hlater.ram x hboth.2, kfree_ram hfree x, if_neg hboth.1]

theorem pgRoundUp_dvd (a : Nat) : pgSize ∣ pgRoundUp a := Nat.dvd_mul_left ..

section Deallocuvm

variable {L : Layout} {oldsz newsz r : Nat} {d d' : PgDir} {m m' : Mem}

theorem deallocuvm_cases (hold : oldsz ≤ kernBase) (h : deallocuvm L d oldsz newsz m = .ok (r, d', m')) :
    (oldsz ≤ newsz ∧ r = oldsz ∧ d' = d ∧ m' = m) ∨
      (newsz < oldsz ∧ r = newsz ∧ Deallocated (pgRoundUp newsz) oldsz d m d' m') := by
  unfold deallocuvm at h
  split at h
  · rename_i hge
    cases h
    exact .inl ⟨hge, rfl, rfl, rfl⟩
  · rename_i hlt
    obtain ⟨⟨d1, m1⟩, hloop, hret⟩ := bind_eq_ok.mp h
    cases hret
    exact .inr ⟨Nat.lt_of_not_le hlt, rfl, deallocuvmLoop_ok hold (pgRoundUp_dvd newsz) hloop⟩

theorem deallocuvm_ok (hold : oldsz ≤ kernBase) (h : deallocuvm L d oldsz newsz m = .ok (r, d', m')) :
    Reshapes (pgRoundUp newsz) oldsz d m d' m' ∧
      ((oldsz ≤ newsz ∧ r = oldsz ∧ d' = d) ∨
        (newsz < oldsz ∧ r = newsz ∧
          ∀ b, b < uintMod → InRange (pgRoundUp newsz) oldsz b → (d'.entry b).present = false)) := by
  rcases deallocuvm_cases hold h with ⟨hle, hr, rfl, rfl⟩ | ⟨hlt, hr, hdealloc⟩
  · exact ⟨.refl .., .inl ⟨hle, hr, rfl⟩⟩
  · exact ⟨hdealloc.reshapes, .inr ⟨hlt, hr, hdealloc.gone⟩⟩

theorem deallocuvm_tables (hold : oldsz ≤ kernBase) (h : deallocuvm L d oldsz newsz m = .ok (r, d', m'))
    (pg : Nat) : d'.tables pg = d.tables pg := by
  rcases deallocuvm_cases hold h with ⟨-, -, rfl, -⟩ | ⟨-, -, hdealloc⟩
  · rfl
  · exact hdealloc.tables pg

end Deallocuvm

/-! ## `freevm` -/

theorem freePgTabs_ok {is : List Nat} (h : freePgTabs L d is m = .ok m') :
    (∀ pg, m'.free.count pg = m.free.count pg +
      (is.map fun i => if (d.pde i).map PgTab.page = some pg then 1 else 0).sum) ∧
    (0 ∉ m.free → 0 ∉ m'.free) := by
  induction is generalizing m with
  | nil =>
    cases h
    exact ⟨fun _ => rfl, id⟩
  | cons i is ih =>
    simp only [freePgTabs] at h
    cases hpde : d.pde i with
    | none =>
      rw [hpde] at h
      obtain ⟨hcount, hzero⟩ := ih h
      refine ⟨fun pg => ?_, hzero⟩
      rw [hcount pg, List.map_cons, List.sum_cons, hpde]
      simp
    | some t =>
      rw [hpde] at h
      obtain ⟨m1, hfree, hrest⟩ := bind_eq_ok.mp h
      obtain ⟨hne, hcons, hone⟩ := kfree_ok hfree
      obtain ⟨hcount, hzero⟩ := ih hrest
      refine ⟨fun pg => ?_, fun hz => hzero ?_⟩
      · rw [hcount pg, hone pg, List.map_cons, List.sum_cons, hpde]
        simp only [Option.map_some, Option.some.injEq, one]
        omega
      · rw [hcons]
        simp only [List.mem_cons, not_or]
        exact ⟨fun heq => hne heq.symm, hz⟩

theorem uses_eq_zero (h : ∀ b, b < kernBase → (d.entry b).present = false) (pg : Nat) : d.uses pg = 0 := by
  unfold PgDir.uses
  apply Finset.sum_eq_zero
  intro v hv
  apply uses_absent
  apply h
  have := Finset.mem_range.mp hv
  simp only [userPages, kernBase, pgSize] at *
  omega

/-- `freevm` returns every page of the directory to the free list, those of user entries
included. -/
theorem freevm_ok (h : freevm L d m = .ok m') :
    (∀ pg, m'.free.count pg = holds d m pg) ∧ (0 ∉ m.free → 0 ∉ m'.free) := by
  unfold freevm at h
  obtain ⟨⟨r, d1, m1⟩, hdealloc, hrest⟩ := bind_eq_ok.mp h
  obtain ⟨m2, htabs, hdir⟩ := bind_eq_ok.mp hrest
  obtain ⟨hres, hcase⟩ := deallocuvm_ok (Nat.le_refl _) hdealloc
  obtain ⟨hcount, hzero⟩ := freePgTabs_ok htabs
  obtain ⟨hne, hcons, hone⟩ := kfree_ok hdir
  have hgone : ∀ b, b < kernBase → (d1.entry b).present = false := by
    rcases hcase with ⟨hle, -⟩ | ⟨-, -, hgone⟩
    · exact absurd hle (by decide)
    · intro b hb
      refine hgone b (by simp only [kernBase, uintMod] at *; omega) ⟨Nat.zero_le _, ?_⟩
      exact Nat.lt_of_le_of_lt (Nat.div_mul_le_self b pgSize) hb
  refine ⟨fun pg => ?_, fun hz => ?_⟩
  · have hcons' := hres.conserved pg
    rw [hone pg, hcount pg, ← hcons']
    unfold holds
    rw [uses_eq_zero hgone pg]
    unfold PgDir.tables one
    have hsum : ((List.range npdEntries).map fun i =>
        if (d1.pde i).map PgTab.page = some pg then 1 else 0).sum =
        ∑ i ∈ Finset.range npdEntries, if (d1.pde i).map PgTab.page = some pg then 1 else 0 := rfl
    rw [hsum]
    omega
  · rw [hcons]
    simp only [List.mem_cons, not_or]
    exact ⟨fun heq => hne heq.symm, hzero (hres.nonzero hz)⟩

/-! ## `allocuvm` -/

theorem MapsPage.reshapes {perm : Perm} (h : MapsPage d m1 a ⟨pa, true, perm⟩ d' m')
    (hfree : m.free = pa :: m1.free) (hlt : a < kernBase) (hin : InRange lo hi a) :
    Reshapes lo hi d m d' m' where
  kept := by
    intro b hb hr
    rw [h.entry_eq b, if_neg]
    intro hsame
    exact hr ((inRange_congr (lt_uintMod hlt) hb hsame).mpr hin)
  walk := h.walk
  conserved := by
    intro pg
    have hmoved := h.moved pg
    unfold holds
    rw [h.uses_eq hlt pg, uses_present, hfree, List.count_cons]
    simp only [beq_iff_eq, one] at *
    omega
  nonzero := by
    intro hz h0
    apply hz
    rw [hfree]
    exact List.mem_cons_of_mem _ (h.subset 0 h0)

/-- The directory entry `j` is that of an address between `lo` and `hi`. -/
def Spans (lo hi j : Nat) : Prop := lo < hi ∧ lo / 2 ^ 22 ≤ j ∧ j ≤ (hi - 1) / 2 ^ 22

instance (lo hi j : Nat) : Decidable (Spans lo hi j) := inferInstanceAs (Decidable (_ ∧ _))

/-- The pages from `lo` to `hi` are mapped, on zeroed pages of the list `l`. -/
structure Allocated (lo hi : Nat) (d : PgDir) (m : Mem) (l : List Nat) (d' : PgDir) (m' : Mem) : Prop where
  takes : Takes m l m'
  filled : ∀ b, b < uintMod → InRange lo hi b → ∃ pa ∈ l, d'.entry b = ⟨pa, true, .wu⟩ ∧
    (m.Proper → ∀ x, OnPage pa x → m'.ram x = 0)
  reshapes : Reshapes lo hi d m d' m'
  vacant : ∀ b, b < uintMod → InRange lo hi b → (d.entry b).present = false
  pde : ∀ j, d'.pde j = none ↔ d.pde j = none ∧ ¬ Spans lo hi j
  tables : ∀ pg, d'.tables pg + m'.free.count pg ≤ d.tables pg + m.free.count pg
  spare : d'.absent + m.free.length = d.absent + m'.free.length + (hi + pgSize - 1 - lo) / pgSize
  distinct : m.free.Nodup → ∀ b b', b < uintMod → b' < uintMod → InRange lo hi b → InRange lo hi b' →
    (d'.entry b).addr = (d'.entry b').addr → pgRoundDown b = pgRoundDown b'

theorem Allocated.refl (lo : Nat) (d : PgDir) (m : Mem) : Allocated lo lo d m [] d m := by
  have hempty : ∀ b, ¬ InRange lo lo b := fun b hin => absurd hin.2 (Nat.not_lt.mpr hin.1)
  refine ⟨.refl m, fun b _ hin => absurd hin (hempty b), .refl .., fun b _ hin => absurd hin (hempty b),
    fun j => ?_, fun _ => Nat.le_refl _, ?_, fun _ b _ _ _ hin => absurd hin (hempty b)⟩
  · exact ⟨fun hj => ⟨hj, fun hin => absurd hin.1 (Nat.lt_irrefl lo)⟩, fun hj => hj.1⟩
  · simp only [pgSize]
    omega

theorem Allocated.next {mem : Nat} {m3 : Mem} (h : Allocated lo a d m l d1 m1) (ha : pgSize ∣ a)
    (hlo : lo ≤ a) (hlt : a < kernBase) (hk : kalloc m1 = some (mem, m2))
    (hmap : mappage d1 a mem .wu (m2.memset mem 0 pgSize) = .ok (true, d2, m3)) :
    ∃ l', Allocated lo (a + pgSize) d m l' d2 m3 := by
  have haddr := lt_uintMod hlt
  have hmaps := mappage_maps hmap
  obtain ⟨hfree, hcount⟩ := kalloc_some hk
  have hset := memset_takes hk 0
  obtain ⟨l1, htable⟩ := mappage_takes hmap
  have hround := hset.trans htable
  have hsplit : ∀ b, InRange lo (a + pgSize) b → pgRoundDown b = a ∨ InRange lo a b :=
    fun b => (inRange_next ha hlo).mp
  have hmem : mem ∈ [mem] ++ l1 := List.mem_append_left _ List.mem_cons_self
  have hself : InRange lo (a + pgSize) a := inRange_self ha hlo (Nat.lt_add_of_pos_right (by decide))
  have hwider : Reshapes lo (a + pgSize) d m d1 m1 :=
    h.reshapes.mono fun b hin => ⟨hin.1, Nat.lt_add_right _ hin.2⟩
  have hnew : ∀ b, b < uintMod → pgRoundDown b = a → d2.entry b = ⟨mem, true, .wu⟩ := by
    intro b hb heq
    rw [hmaps.entry_round ha haddr hb, if_pos heq]
  have hkept : ∀ b, b < uintMod → InRange lo a b → d2.entry b = d1.entry b := by
    intro b hb hin
    rw [hmaps.entry_round ha haddr hb, if_neg (Nat.ne_of_lt hin.2)]
  refine ⟨l ++ ([mem] ++ l1), h.takes.trans hround, fun b hb hin => ?_,
    hwider.trans (hmaps.reshapes hfree hlt hself), fun b hb hin => ?_, fun j => ?_, fun pg => ?_, ?_,
    fun hnodup b b' hb hb' hin hin' heq => ?_⟩
  · rcases hsplit b hin with heq | hin'
    · refine ⟨mem, List.mem_append_right _ hmem, hnew b hb heq, fun hm x hx => ?_⟩
      rw [htable.ram_of_taken (h.takes.proper hm) hset List.mem_cons_self hx]
      exact if_pos hx
    · obtain ⟨pa, hpa, hentry, hzero⟩ := h.filled b hb hin'
      refine ⟨pa, List.mem_append_left _ hpa, (hkept b hb hin').trans hentry, fun hm x hx => ?_⟩
      rw [hround.ram_of_taken hm h.takes hpa hx]
      exact hzero hm x hx
  · rcases hsplit b hin with heq | hin'
    · have hout : ¬ InRange lo a b := fun hin' => absurd hin'.2 (Nat.not_lt.mpr (Nat.le_of_eq heq.symm))
      rw [← h.reshapes.kept b hb hout, entry_samePage (samePage_of_roundDown hb heq)]
      exact hmaps.vacant
    · exact h.vacant b hb hin'
  · rw [mappage_pde hmap j, h.pde j, and_assoc, ← not_or]
    have hiff : Spans lo a j ∨ j = pdx a ↔ Spans lo (a + pgSize) j := by
      obtain ⟨c, rfl⟩ := ha
      simp only [Spans, pdx, pgSize, kernBase] at *
      omega
    rw [hiff]
  · have hmoved : d2.tables pg + m3.free.count pg = d1.tables pg + m2.free.count pg := hmaps.moved pg
    have hbefore := h.tables pg
    have hpage := hcount pg
    omega
  · have hlen : m1.free.length = (m2.memset mem 0 pgSize).free.length + 1 := by
      rw [hfree, List.length_cons]
      rfl
    have hrounds : (a + pgSize + pgSize - 1 - lo) / pgSize = (a + pgSize - 1 - lo) / pgSize + 1 := by
      simp only [pgSize]
      omega
    have hbefore := h.spare
    have hspare := hmaps.spare
    omega
  · -- the new page is none of those taken before
    have hfresh : ∀ c, c < uintMod → InRange lo a c → (d2.entry c).addr ≠ mem := by
      intro c hc hold hmem
      obtain ⟨pa, hpa, hentry, -⟩ := h.filled c hc hold
      rw [hkept c hc hold, hentry] at hmem
      rw [h.takes.free, hfree] at hnodup
      exact (List.disjoint_of_nodup_append hnodup) (hmem ▸ hpa) List.mem_cons_self
    rcases hsplit b hin with hat | hold <;> rcases hsplit b' hin' with hat' | hold'
    · rw [hat, hat']
    · rw [hnew b hb hat] at heq
      exact absurd heq.symm (hfresh b' hb' hold')
    · rw [hnew b' hb' hat'] at heq
      exact absurd heq (hfresh b hb hold)
    · rw [hkept b hb hold, hkept b' hb' hold'] at heq
      exact h.distinct hnodup b b' hb hb' hold hold' heq

/-- How the loop of `allocuvm` ends at the page `a`: it is done, the page is present already, or
memory is short and it takes back what it has done. -/
inductive AllocEnds (L : Layout) (oldsz newsz a : Nat) (d : PgDir) (m : Mem) :
    Except String (Nat × PgDir × Mem) → Prop
  | done (h : newsz ≤ a) : AllocEnds L oldsz newsz a d m (.ok (newsz, d, m))
  | remap (h : a < newsz) (hpresent : (d.entry a).present = true) :
      AllocEnds L oldsz newsz a d m (.error "remap")
  | page (h : a < newsz) (hempty : m.free = []) :
      AllocEnds L oldsz newsz a d m (do
        let (_, d, m) ← deallocuvm L d newsz oldsz m
        return (0, d, m))
  | table {mem : Nat} {m1 : Mem} (h : a < newsz) (hk : kalloc m = some (mem, m1)) (hnone : d.walk a = none)
      (hempty : m1.free = []) :
      AllocEnds L oldsz newsz a d m (do
        let (_, d, m) ← deallocuvm L d newsz oldsz (m1.memset mem 0 pgSize)
        let m ← kfree L m mem
        return (0, d, m))

/-- The rounds of `allocuvm` map pages up to the one at which it ends. -/
theorem allocuvmLoop_outcome (L : Layout) {n : Nat} {d0 : PgDir} {m0 : Mem} (hnew : newsz < kernBase)
    (ha : pgSize ∣ a) (hlo : lo ≤ a) (hn : n = (newsz + pgSize - 1 - a) / pgSize)
    (hpast : a < newsz + pgSize ∨ a = lo) (h : Allocated lo a d0 m0 l d m) :
    ∃ a1 l1 d1 m1, Allocated lo a1 d0 m0 l1 d1 m1 ∧ lo ≤ a1 ∧ pgSize ∣ a1 ∧
      (a1 < newsz + pgSize ∨ a1 = lo) ∧ AllocEnds L oldsz newsz a1 d1 m1 (allocuvmLoop L oldsz newsz n a d m) := by
  induction n generalizing a d m l with
  | zero =>
    refine ⟨a, l, d, m, h, hlo, ha, hpast, .done ?_⟩
    simp only [pgSize] at *
    omega
  | succ n ih =>
    have hlt : a < newsz := by
      simp only [pgSize] at hn
      omega
    have hfewer : n = (newsz + pgSize - 1 - (a + pgSize)) / pgSize := by
      simp only [pgSize] at hn ⊢
      omega
    have hkern := Nat.lt_trans hlt hnew
    simp only [allocuvmLoop]
    cases hk : kalloc m with
    | none => exact ⟨a, l, d, m, h, hlo, ha, hpast, .page hlt (kalloc_none hk)⟩
    | some page =>
      obtain ⟨mem, m1⟩ := page
      dsimp only
      rw [mappages_one ha]
      cases hmap : mappage d a mem .wu (m1.memset mem 0 pgSize) with
      | error e =>
        obtain ⟨hpresent, rfl⟩ := mappage_error hmap
        exact ⟨a, l, d, m, h, hlo, ha, hpast, .remap hlt hpresent⟩
      | ok x =>
        obtain ⟨ok, d2, m2⟩ := x
        rw [ok_bind]
        cases ok with
        | true =>
          obtain ⟨l', hnext⟩ := h.next ha hlo hkern hk hmap
          exact ih (Nat.dvd_add ha (Nat.dvd_refl _)) (Nat.le_trans hlo (Nat.le_add_right ..)) hfewer
            (.inl (Nat.add_lt_add_right hlt pgSize)) hnext
        | false =>
          obtain ⟨rfl, rfl, hnone, hempty⟩ := mappage_false hmap
          exact ⟨a, l, d2, m, h, hlo, ha, hpast, .table hlt hk hnone hempty⟩

theorem le_pgRoundUp (h : a ≤ kernBase) : a ≤ pgRoundUp a := by
  simp only [pgRoundUp, kernBase, pgSize, uintMod, Nat.reducePow] at *
  omega

section Allocuvm

variable {L : Layout} {oldsz newsz r : Nat} {d d' : PgDir} {m m' : Mem}

theorem allocuvm_outcome (L : Layout) (d : PgDir) (m : Mem) (hnew : newsz < kernBase) (hgrows : oldsz ≤ newsz) :
    ∃ a l d1 m1, Allocated (pgRoundUp oldsz) a d m l d1 m1 ∧ pgRoundUp oldsz ≤ a ∧ pgSize ∣ a ∧
      (a < newsz + pgSize ∨ a = pgRoundUp oldsz) ∧ AllocEnds L oldsz newsz a d1 m1 (allocuvm L d oldsz newsz m) := by
  unfold allocuvm
  rw [if_neg (Nat.not_le.mpr hnew), if_neg (Nat.not_lt.mpr hgrows)]
  exact allocuvmLoop_outcome L hnew (pgRoundUp_dvd oldsz) (Nat.le_refl _) rfl (.inr rfl) (.refl ..)

theorem Allocated.upTo (h : Allocated lo a d m l d' m') (hlo : lo ≤ a) (hlodvd : pgSize ∣ lo) (ha : pgSize ∣ a)
    (hpast : a < newsz + pgSize ∨ a = lo) (hdone : newsz ≤ a) : Allocated lo newsz d m l d' m' := by
  obtain ⟨c, rfl⟩ := hlodvd
  obtain ⟨c', rfl⟩ := ha
  have hin : ∀ b, InRange (pgSize * c) newsz b ↔ InRange (pgSize * c) (pgSize * c') b := by
    intro b
    simp only [InRange, pgRoundDown, pgSize] at *
    omega
  refine ⟨h.takes, fun b hb hb' => h.filled b hb ((hin b).mp hb'), h.reshapes.mono fun b => (hin b).mpr,
    fun b hb hb' => h.vacant b hb ((hin b).mp hb'), fun j => ?_, h.tables, ?_,
    fun hnodup b b' hb hb' hr hr' => h.distinct hnodup b b' hb hb' ((hin b).mp hr) ((hin b').mp hr')⟩
  · rw [h.pde j]
    apply and_congr_right
    intro _
    apply not_congr
    simp only [Spans, pgSize] at *
    omega
  · have hspare := h.spare
    simp only [pgSize] at *
    omega

/-- What `allocuvm` returns between its sizes: the pages are mapped; or memory was short and none
is. -/
theorem allocuvm_cases (hold : oldsz ≤ kernBase) (hnew : newsz < kernBase) (hgrows : oldsz ≤ newsz)
    (h : allocuvm L d oldsz newsz m = .ok (r, d', m')) :
    (r = newsz ∧ ∃ l, Allocated (pgRoundUp oldsz) newsz d m l d' m') ∨
      (r = 0 ∧ Reshapes (pgRoundUp oldsz) newsz d m d' m' ∧
        (∀ b, b < uintMod → InRange (pgRoundUp oldsz) newsz b → (d'.entry b).present = false) ∧
        ∀ pg, d'.tables pg ≤ d.tables pg + m.free.count pg) := by
  obtain ⟨a, l, d1, m1, halloc, hlo, ha, hpast, hends⟩ := allocuvm_outcome L d m hnew hgrows
  -- the pages mapped so far lie in the range that is emptied
  have hsofar : a < newsz → Reshapes (pgRoundUp oldsz) newsz d m d1 m1 := fun hlt =>
    halloc.reshapes.mono fun b hin => ⟨hin.1, Nat.lt_trans hin.2 hlt⟩
  have hundone : ∀ {r2 d2 m2 m3}, a < newsz → deallocuvm L d1 newsz oldsz m2 = .ok (r2, d2, m3) →
      Deallocated (pgRoundUp oldsz) newsz d1 m2 d2 m3 := by
    intro r2 d2 m2 m3 hlt hdealloc
    have hup := le_pgRoundUp hold
    rcases deallocuvm_cases (Nat.le_of_lt hnew) hdealloc with ⟨hle, -⟩ | ⟨-, -, hundo⟩
    · omega
    · exact hundo
  have htables : ∀ pg, d1.tables pg ≤ d.tables pg + m.free.count pg := fun pg =>
    Nat.le_trans (Nat.le_add_right ..) (halloc.tables pg)
  rw [h] at hends
  generalize hres : (Except.ok (r, d', m') : Except String (Nat × PgDir × Mem)) = res at hends
  cases hends with
  | done hdone =>
    cases hres
    exact .inl ⟨rfl, l, halloc.upTo hlo (pgRoundUp_dvd oldsz) ha hpast hdone⟩
  | remap => cases hres
  | page hlt =>
    obtain ⟨⟨r2, d2, m2⟩, hdealloc, hret⟩ := bind_eq_ok.mp hres.symm
    cases hret
    have hundo := hundone hlt hdealloc
    refine .inr ⟨rfl, (hsofar hlt).trans hundo.reshapes, hundo.gone, fun pg => ?_⟩
    rw [hundo.tables]
    exact htables pg
  | table hlt hk =>
    obtain ⟨⟨r2, d2, m2⟩, hdealloc, hrest⟩ := bind_eq_ok.mp hres.symm
    obtain ⟨m3, hback, hret⟩ := bind_eq_ok.mp hrest
    cases hret
    have hundo := hundone hlt hdealloc
    refine .inr ⟨rfl, (hsofar hlt).trans (hundo.reshapes.giveBack (kalloc_some hk).1 hback), hundo.gone,
      fun pg => ?_⟩
    rw [hundo.tables]
    exact htables pg

theorem allocuvm_ok (hold : oldsz ≤ kernBase) (h : allocuvm L d oldsz newsz m = .ok (r, d', m')) :
    Reshapes (pgRoundUp oldsz) newsz d m d' m' ∧
      ((newsz ≥ kernBase ∧ r = 0 ∧ d' = d) ∨ (newsz < oldsz ∧ r = oldsz ∧ d' = d) ∨
        (oldsz ≤ newsz ∧ newsz < kernBase ∧ r = newsz ∧
          ∀ b, b < uintMod → InRange (pgRoundUp oldsz) newsz b → (d'.entry b).present = true) ∨
        (oldsz ≤ newsz ∧ newsz < kernBase ∧ r = 0 ∧
          ∀ b, b < uintMod → InRange (pgRoundUp oldsz) newsz b → (d'.entry b).present = false)) := by
  by_cases hnew : newsz < kernBase
  · by_cases hgrows : oldsz ≤ newsz
    · rcases allocuvm_cases hold hnew hgrows h with ⟨hr, l, halloc⟩ | ⟨hr, hres, hgone, -⟩
      · refine ⟨halloc.reshapes, .inr (.inr (.inl ⟨hgrows, hnew, hr, fun b hb hin => ?_⟩))⟩
        obtain ⟨pa, -, hentry, -⟩ := halloc.filled b hb hin
        rw [hentry]
      · exact ⟨hres, .inr (.inr (.inr ⟨hgrows, hnew, hr, hgone⟩))⟩
    · unfold allocuvm at h
      rw [if_neg (Nat.not_le.mpr hnew), if_pos (Nat.lt_of_not_le hgrows)] at h
      cases h
      exact ⟨.refl .., .inr (.inl ⟨Nat.lt_of_not_le hgrows, rfl, rfl⟩)⟩
  · unfold allocuvm at h
    rw [if_pos (Nat.le_of_not_lt hnew)] at h
    cases h
    exact ⟨.refl .., .inl ⟨Nat.le_of_not_lt hnew, rfl, rfl⟩⟩

theorem allocuvm_tables (hold : oldsz ≤ kernBase) (h : allocuvm L d oldsz newsz m = .ok (r, d', m'))
    (pg : Nat) : d'.tables pg ≤ d.tables pg + m.free.count pg := by
  obtain ⟨-, hcase⟩ := allocuvm_ok hold h
  rcases hcase with ⟨-, -, rfl⟩ | ⟨-, -, rfl⟩ | ⟨hgrows, hnew, -⟩ | ⟨hgrows, hnew, -⟩
  · exact Nat.le_add_right ..
  · exact Nat.le_add_right ..
  all_goals
    rcases allocuvm_cases hold hnew hgrows h with ⟨-, l, halloc⟩ | ⟨-, -, -, htables⟩
    · exact Nat.le_trans (Nat.le_add_right ..) (halloc.tables pg)
    · exact htables pg

end Allocuvm

/-! ## No page is mapped twice -/

/-- The messages with which code that gives pages back stops. -/
def releasePanics : List String := ["kfree", "deallocuvm: out of fuel"]

theorem kfree_gives : Gives (kfree L m pa) (fun _ => True) (· ∈ releasePanics) := by
  unfold kfree
  dsimp only
  split
  · exact .error List.mem_cons_self
  · exact .ok trivial

theorem deallocuvmLoop_gives : Gives (deallocuvmLoop L hi fuel a d m) (fun _ => True) (· ∈ releasePanics) := by
  induction fuel generalizing a d m with
  | zero => exact .error (List.mem_cons_of_mem _ List.mem_cons_self)
  | succ fuel ih =>
    unfold deallocuvmLoop
    refine gives_ite (fun _ => ?_) fun _ => .ok trivial
    cases d.walk a with
    | none => exact ih
    | some pte =>
      refine gives_ite (fun _ => ?_) fun _ => ih
      exact gives_ite (fun _ => .error List.mem_cons_self) fun _ => .bind kfree_gives fun _ _ => ih

theorem deallocuvm_gives : Gives (deallocuvm L d oldsz newsz m) (fun _ => True) (· ∈ releasePanics) := by
  unfold deallocuvm
  exact gives_ite (fun _ => .ok trivial) fun _ => .bind deallocuvmLoop_gives fun _ _ => .ok trivial

theorem freePgTabs_gives {is : List Nat} : Gives (freePgTabs L d is m) (fun _ => True) (· ∈ releasePanics) := by
  induction is generalizing m with
  | nil => exact .ok trivial
  | cons i is ih =>
    unfold freePgTabs
    cases d.pde i with
    | none => exact ih
    | some t => exact .bind kfree_gives fun _ _ => ih

theorem freevm_gives : Gives (freevm L d m) (fun _ => True) (· ∈ releasePanics) :=
  .bind deallocuvm_gives fun _ _ => .bind freePgTabs_gives fun _ _ => kfree_gives

/-- Where nothing is present yet `allocuvm` does not end at a page that is. -/
theorem Allocated.not_remap (h : Allocated lo a d m l d' m') (ha : pgSize ∣ a) (hlo : lo ≤ a)
    (hnew : newsz < kernBase) (hlt : a < newsz)
    (hvacant : ∀ b, b < uintMod → InRange lo newsz b → (d.entry b).present = false) :
    ¬ (d'.entry a).present = true := by
  have haddr := lt_uintMod (Nat.lt_trans hlt hnew)
  rw [h.reshapes.kept a haddr, hvacant a haddr (inRange_self ha hlo hlt)]
  · decide
  · intro hin
    have hbelow := hin.2
    rw [pgRoundDown_of_dvd ha] at hbelow
    exact absurd hbelow (Nat.lt_irrefl a)

/-- Where nothing is present yet `allocuvm` stops in giving pages back at most. -/
theorem allocuvm_gives (hvacant : newsz < kernBase → ∀ b, b < uintMod → InRange (pgRoundUp oldsz) newsz b →
      (d.entry b).present = false) :
    Gives (allocuvm L d oldsz newsz m) (fun _ => True) (· ∈ releasePanics) := by
  by_cases hrange : newsz < kernBase ∧ oldsz ≤ newsz
  · obtain ⟨hnew, hgrows⟩ := hrange
    obtain ⟨a, l, d1, m1, halloc, hlo, ha, -, hends⟩ := allocuvm_outcome L d m hnew hgrows
    generalize allocuvm L d oldsz newsz m = res at hends
    cases hends with
    | done => exact .ok trivial
    | remap hlt hpresent => exact absurd hpresent (halloc.not_remap ha hlo hnew hlt (hvacant hnew))
    | page => exact .bind deallocuvm_gives fun _ _ => .ok trivial
    | table => exact .bind deallocuvm_gives fun _ _ => .bind kfree_gives fun _ _ => .ok trivial
  · unfold allocuvm
    refine gives_ite (fun _ => .ok trivial) fun hnew => gives_ite (fun _ => .ok trivial) fun hgrows => ?_
    omega

/-! ## Sizes -/

variable {sz va : Nat}

def sizeUp (sz : Nat) : Nat := (sz + pgSize - 1) / pgSize * pgSize

theorem sizeUp_div : sizeUp sz / pgSize = (sz + pgSize - 1) / pgSize :=
  Nat.mul_div_cancel _ (Nat.two_pow_pos 12)

theorem pgRoundUp_eq (h : sz ≤ kernBase) : pgRoundUp sz = sizeUp sz := by
  simp only [pgRoundUp, sizeUp, kernBase, pgSize, uintMod, Nat.reducePow] at *
  omega

theorem lt_sizeUp_iff : va < sizeUp sz ↔ pgRoundDown va < sz := by
  simp only [sizeUp, pgRoundDown, pgSize]
  omega

/-- The user pages present are those below the size. -/
def Contiguous (d : PgDir) (sz : Nat) : Prop :=
  ∀ va, va < kernBase → ((d.entry va).present = true ↔ va < sizeUp sz)

theorem inRange_iff {oldsz newsz : Nat} (hold : oldsz ≤ kernBase) :
    InRange (pgRoundUp oldsz) newsz va ↔ sizeUp oldsz ≤ va ∧ va < sizeUp newsz := by
  unfold InRange
  rw [pgRoundUp_eq hold, lt_sizeUp_iff]
  simp only [sizeUp, pgRoundDown, pgSize]
  omega

theorem sizeUp_mono {sz' : Nat} (h : sz ≤ sz') : sizeUp sz ≤ sizeUp sz' := by
  simp only [sizeUp, pgSize]
  omega

theorem below_kernBase {b : Nat} (hsz : sz < kernBase) (hb : b < sizeUp sz) : b < kernBase := by
  simp only [sizeUp, pgSize, kernBase] at *
  omega

theorem allocuvm_grows {oldsz newsz r : Nat} (hold : oldsz ≤ kernBase)
    (halloc : allocuvm L d oldsz newsz m = .ok (r, d', m')) (hr : r ≠ 0) :
    r = max oldsz newsz ∧ r ≤ kernBase ∧ ∀ va, va < uintMod →
      if sizeUp oldsz ≤ va ∧ va < sizeUp r then ∃ pa, d'.entry va = ⟨pa, true, .wu⟩
      else d'.entry va = d.entry va := by
  by_cases hnew : newsz < kernBase
  · by_cases hgrows : oldsz ≤ newsz
    · rcases allocuvm_cases hold hnew hgrows halloc with ⟨rfl, l, hall⟩ | ⟨hz, -⟩
      · refine ⟨(Nat.max_eq_right hgrows).symm, Nat.le_of_lt hnew, fun va hva => ?_⟩
        split
        · obtain ⟨pa, -, hentry, -⟩ := hall.filled va hva ((inRange_iff hold).mpr ‹_›)
          exact ⟨pa, hentry⟩
        · exact hall.reshapes.kept va hva (mt (inRange_iff hold).mp ‹_›)
      · exact absurd hz hr
    · unfold allocuvm at halloc
      rw [if_neg (Nat.not_le.mpr hnew), if_pos (Nat.lt_of_not_le hgrows)] at halloc
      cases halloc
      refine ⟨(Nat.max_eq_left (Nat.le_of_not_le hgrows)).symm, hold, fun va _ => ?_⟩
      rw [if_neg (by omega)]
  · unfold allocuvm at halloc
    rw [if_pos (Nat.le_of_not_lt hnew)] at halloc
    cases halloc
    exact absurd rfl hr

theorem Contiguous.allocuvm {oldsz newsz r : Nat} (h : Contiguous d oldsz) (hold : oldsz ≤ kernBase)
    (halloc : allocuvm L d oldsz newsz m = .ok (r, d', m')) (hr : r ≠ 0) : r ≤ kernBase ∧ Contiguous d' r := by
  obtain ⟨hmax, hle, hentries⟩ := allocuvm_grows hold halloc hr
  refine ⟨hle, fun va hva => ?_⟩
  have hmono : sizeUp oldsz ≤ sizeUp r := sizeUp_mono (by omega)
  have hentry := hentries va (lt_uintMod hva)
  split at hentry
  · obtain ⟨pa, hentry⟩ := hentry
    rw [hentry]
    exact ⟨fun _ => by omega, fun _ => rfl⟩
  · rw [hentry, h va hva]
    omega

theorem Contiguous.vacant {newsz : Nat} (h : Contiguous d sz) (hsz : sz ≤ kernBase) (hnew : newsz < kernBase) :
    ∀ b, b < uintMod → InRange (pgRoundUp sz) newsz b → (d.entry b).present = false := by
  intro b _ hin
  have hb : b < kernBase := by
    have hbelow := hin.2
    simp only [pgRoundDown, pgSize, kernBase] at *
    omega
  rw [Bool.eq_false_iff, Ne, h b hb]
  have hrange := (inRange_iff hsz).mp hin
  omega

theorem Contiguous.deallocuvm {oldsz newsz r : Nat} (h : Contiguous d oldsz) (hold : oldsz ≤ kernBase)
    (hdealloc : deallocuvm L d oldsz newsz m = .ok (r, d', m')) : r ≤ kernBase ∧ Contiguous d' r := by
  obtain ⟨hres, hcase⟩ := deallocuvm_ok hold hdealloc
  rcases hcase with ⟨-, rfl, rfl⟩ | ⟨hlt, rfl, hgone⟩
  · exact ⟨hold, h⟩
  · have hnew : r ≤ kernBase := Nat.le_trans (Nat.le_of_lt hlt) hold
    have hmono := sizeUp_mono (Nat.le_of_lt hlt)
    refine ⟨hnew, fun va hva => ?_⟩
    have hrange : InRange (pgRoundUp r) oldsz va ↔ _ := inRange_iff hnew
    by_cases hin : InRange (pgRoundUp r) oldsz va
    · rw [hgone va (lt_uintMod hva) hin]
      have := hrange.mp hin
      exact ⟨fun hc => (by cases hc), fun hlt' => (by omega)⟩
    · rw [hres.kept va (lt_uintMod hva) hin, h va hva]
      rw [hrange] at hin
      omega

theorem pgRoundUp_lt (sz : Nat) : pgRoundUp sz < uintMod := by
  simp only [pgRoundUp, pgSize, uintMod, Nat.reducePow]
  omega

theorem Contiguous.push {x : Pte} (h : Contiguous d sz) (hsz : sz ≤ kernBase) (hx : x.present = true)
    (hmap : MapsPage d m (pgRoundUp sz) x d' m') : Contiguous d' (sz + pgSize) := by
  intro va hva
  have hpage := samePage_iff (lt_uintMod hva) (pgRoundUp_lt sz)
  rw [pgRoundUp_eq hsz] at hpage
  rw [hmap.entry_eq va, lt_sizeUp_iff]
  split
  · rename_i hsame
    have heq := hpage.mp (pgRoundUp_eq hsz ▸ hsame)
    rw [hx]
    refine ⟨fun _ => ?_, fun _ => rfl⟩
    simp only [sizeUp, pgRoundDown, pgSize] at heq ⊢
    omega
  · rename_i hsame
    have hne : va / pgSize ≠ sizeUp sz / pgSize := fun heq =>
      hsame (pgRoundUp_eq hsz ▸ hpage.mpr heq)
    rw [h va hva, lt_sizeUp_iff]
    simp only [sizeUp, pgRoundDown, pgSize] at hne ⊢
    omega

end Xv6.Vm
