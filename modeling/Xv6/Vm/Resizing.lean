import Xv6.Vm.Progress

/-! # `deallocuvm` and `allocuvm` as a whole

Where a page table is missing `deallocuvm` goes on at the next one. It does what a walk does that
visits every page address. `allocuvm` maps all pages up to the new size, or it leaves none behind.
-/

namespace Xv6.Vm

open Lib

variable {L : Layout} {d d' : PgDir} {m m' : Mem} {a a' lo hi oldsz newsz : Nat}

/-! ## The walk over every page address -/

/-- Rounds at the page addresses from `a` on. -/
def visitLoop (L : Layout) : Nat → Nat → PgDir → Mem → Except String (PgDir × Mem)
  | 0, _, d, m => .ok (d, m)
  | n + 1, a, d, m =>
    if (d.entry a).present then
      if (d.entry a).addr = 0 then .error "kfree"
      else do
        let m ← kfree L m (d.entry a).addr
        visitLoop L n (a + pgSize) (d.set a .zero) m
    else visitLoop L n (a + pgSize) d m

/-- The walk over all page addresses `a` with `lo ≤ a < hi`. -/
def plainWalk (L : Layout) (lo hi : Nat) : PgDir → Mem → Except String (PgDir × Mem) :=
  visitLoop L ((hi + pgSize - 1 - lo) / pgSize) lo

theorem plainWalk_done (L : Layout) (d : PgDir) (m : Mem) (h : hi ≤ lo) : plainWalk L lo hi d m = .ok (d, m) := by
  have hzero : (hi + pgSize - 1 - lo) / pgSize = 0 := by
    simp only [pgSize]
    omega
  unfold plainWalk
  rw [hzero]
  rfl

theorem visitLoop_succ {n : Nat} : visitLoop L (n + 1) a d m = if (d.entry a).present then
      if (d.entry a).addr = 0 then .error "kfree"
      else kfree L m (d.entry a).addr >>= visitLoop L n (a + pgSize) (d.set a .zero)
    else visitLoop L n (a + pgSize) d m := rfl

theorem rounds_succ (h : lo < hi) :
    (hi + pgSize - 1 - lo) / pgSize = (hi + pgSize - 1 - (lo + pgSize)) / pgSize + 1 := by
  have hmore : hi + pgSize - 1 - lo = hi + pgSize - 1 - (lo + pgSize) + pgSize := by omega
  rw [hmore, Nat.add_div_right _ (by decide)]

theorem plainWalk_succ (L : Layout) (d : PgDir) (m : Mem) (h : lo < hi) :
    plainWalk L lo hi d m =
      if (d.entry lo).present then
        if (d.entry lo).addr = 0 then .error "kfree"
        else kfree L m (d.entry lo).addr >>= plainWalk L (lo + pgSize) hi (d.set lo .zero)
      else plainWalk L (lo + pgSize) hi d m := by
  unfold plainWalk
  rw [rounds_succ h, visitLoop_succ]

/-- Vacant pages can be left out. -/
theorem plainWalk_skip (ha : pgSize ∣ a) (ha' : pgSize ∣ a') (hle : a ≤ a') (hhi : hi ≤ kernBase)
    (hvacant : ∀ b, b < uintMod → InRange a a' b → (d.entry b).present = false) :
    plainWalk L a hi d m = plainWalk L a' hi d m := by
  induction hn : a' - a using Nat.strong_induction_on generalizing a with
  | _ n ih =>
    by_cases hend : a = a'
    · rw [hend]
    have hnext : a + pgSize ≤ a' := by
      obtain ⟨c, rfl⟩ := ha
      obtain ⟨c', rfl⟩ := ha'
      simp only [pgSize] at *
      omega
    rw [← ih (a' - (a + pgSize)) (by simp only [pgSize] at *; omega) (Nat.dvd_add ha (Nat.dvd_refl _)) hnext
      (fun b hb hin => hvacant b hb ⟨Nat.le_trans (Nat.le_add_right ..) hin.1, hin.2⟩) rfl]
    by_cases hlt : a < hi
    · rw [plainWalk_succ L d m hlt, hvacant a (lt_uintMod (Nat.lt_of_lt_of_le hlt hhi))
        (inRange_self ha (Nat.le_refl a) (Nat.lt_of_le_of_ne hle hend)), if_neg Bool.false_ne_true]
    · rw [plainWalk_done L d m (by omega), plainWalk_done L d m (by omega)]

theorem deallocuvmLoop_plain (fuel : Nat) (hhi : hi ≤ kernBase) (ha : pgSize ∣ a)
    (hfuel : hi ≤ a + fuel * pgSize) : deallocuvmLoop L hi (fuel + 1) a d m = plainWalk L a hi d m := by
  induction fuel generalizing a d m with
  | zero =>
    simp only [deallocuvmLoop]
    rw [if_neg (by omega), plainWalk_done L d m (by omega)]
  | succ fuel ih =>
    have hfuel' : hi ≤ a + pgSize + fuel * pgSize := by
      simp only [pgSize] at *
      omega
    rcases deallocuvmLoop_succ L (fuel + 1) d m hhi ha with
      ⟨hle, heq⟩ | ⟨a', hle, ha', hvacant, heq⟩ | ⟨hlt, -, hpresent, heq⟩
    · rw [heq, plainWalk_done L d m hle]
    · rw [heq, ih ha' (Nat.le_trans hfuel' (Nat.add_le_add_right hle _))]
      exact (plainWalk_skip ha ha' (Nat.le_trans (Nat.le_add_right ..) hle) hhi hvacant).symm
    rw [heq, plainWalk_succ L d m hlt, if_pos hpresent]
    split
    · rfl
    · congr 1
      funext m1
      exact ih (Nat.dvd_add ha (Nat.dvd_refl _)) hfuel'

/-- `deallocuvm` is the walk over every page address between the sizes. It ends, where `kfree` accepts
the pages that are present, and frees these and no others, once each. -/
theorem deallocuvm_plain_walk (L : Layout) (d : PgDir) (m : Mem) {oldsz newsz : Nat} (hold : oldsz ≤ kernBase)
    (hnew : newsz ≤ kernBase) :
    deallocuvm L d oldsz newsz m =
        (plainWalk L (pgRoundUp newsz) oldsz d m).map (fun s => (min newsz oldsz, s.1, s.2)) ∧
      (d.Freeable L (pgRoundUp newsz) oldsz → ∃ s, plainWalk L (pgRoundUp newsz) oldsz d m = .ok s) ∧
      ∀ d' m', plainWalk L (pgRoundUp newsz) oldsz d m = .ok (d', m') →
        Deallocated (pgRoundUp newsz) oldsz d m d' m' := by
  have hloop : deallocuvmLoop L oldsz (oldsz / pgSize + 2) (pgRoundUp newsz) d m =
      plainWalk L (pgRoundUp newsz) oldsz d m :=
    deallocuvmLoop_plain (oldsz / pgSize + 1) hold (pgRoundUp_dvd newsz) (by simp only [pgSize]; omega)
  refine ⟨?_, fun hd => ?_, fun d' m' hwalk => deallocuvmLoop_ok hold (pgRoundUp_dvd newsz) (hloop.trans hwalk)⟩
  · unfold deallocuvm
    split
    · rename_i hge
      rw [plainWalk_done L d m (Nat.le_trans hge (le_pgRoundUp hnew)), Nat.min_eq_right hge]
      rfl
    · rw [hloop, Nat.min_eq_left (by omega)]
      cases plainWalk L (pgRoundUp newsz) oldsz d m with
      | error e => rfl
      | ok s => rfl
  · obtain ⟨d', m', htotal, -⟩ := deallocuvmLoop_total (m := m) (oldsz / pgSize + 1) hold (pgRoundUp_dvd newsz)
      (by simp only [pgSize]; omega) hd
    exact ⟨(d', m'), hloop ▸ htotal⟩

def smallLayout : Layout where
  data := kernBase + 0x108000
  kend := kernBase + 0x115000
  data_aligned := by decide
  kernLink_lt_data := by decide
  data_lt_kend := by decide
  kend_le_top := by decide

/-- A directory at `base` with one page, at the first address of directory entry `i`, and the kernel's
half. The page tables and the page follow the directory. -/
def lonePage (base i : Nat) : PgDir :=
  ⟨base, fun k =>
    if k = i then some ⟨base + pgSize, fun j => if j = 0 then ⟨base + 2 * pgSize, true, .wu⟩ else .zero⟩
    else if k = pdx kernBase then some ⟨base + 3 * pgSize, fun j => ⟨j * pgSize, true, ⟨true, false⟩⟩⟩
    else none⟩

theorem lonePage_entry (base i : Nat) {b : Nat} (hb : b < kernBase) : (lonePage base i).entry b =
    if pdx b = i ∧ ptx b = 0 then ⟨base + 2 * pgSize, true, .wu⟩ else .zero := by
  have hpdx : pdx b ≠ pdx kernBase := by
    simp only [pdx, kernBase] at *
    omega
  unfold PgDir.entry PgDir.walk lonePage
  by_cases hi : pdx b = i
  · by_cases hptx : ptx b = 0 <;> simp [hi, hptx]
  · simp [hi, hpdx]

theorem lonePage_present {base i b : Nat} (hb : b < kernBase)
    (h : ((lonePage base i).entry b).present = true) :
    (lonePage base i).entry b = ⟨base + 2 * pgSize, true, .wu⟩ := by
  rw [lonePage_entry base i hb] at h ⊢
  split at h
  · rw [if_pos ‹_›]
  · cases h

theorem lonePage_freeable {base : Nat} (h : smallLayout.Accepts (base + 2 * pgSize)) (i lo hi : Nat) :
    (lonePage base i).Freeable smallLayout lo hi := by
  intro b hb _ hpresent
  rw [lonePage_present hb hpresent]
  exact ⟨by simp only [pgSize]; omega, h⟩

def onlyFree (l : List Nat) : Mem := ⟨l, fun _ => 0⟩

/-- The one page lies behind a missing page table. -/
theorem deallocuvm_plain_walk_gap : ∃ d' m',
    deallocuvm smallLayout (lonePage 0x405000 1) (1025 * pgSize) 0 (onlyFree []) = .ok (0, d', m') ∧
      Deallocated (pgRoundUp 0) (1025 * pgSize) (lonePage 0x405000 1) (onlyFree []) d' m' ∧
      ((lonePage 0x405000 1).entry (1024 * pgSize)).present = true ∧ (d'.entry (1024 * pgSize)).present = false := by
  obtain ⟨hwalk, hends, hdone⟩ := deallocuvm_plain_walk smallLayout (lonePage 0x405000 1) (onlyFree [])
    (show 1025 * pgSize ≤ kernBase by decide) (show 0 ≤ kernBase by decide)
  obtain ⟨⟨d', m'⟩, hok⟩ := hends (lonePage_freeable (by decide) 1 _ _)
  have hgone := hdone d' m' hok
  refine ⟨d', m', by rw [hwalk, hok]; rfl, hgone, by decide, ?_⟩
  rw [hgone.gone (1024 * pgSize) (by decide) ⟨by decide, by decide⟩]

/-! ## `allocuvm` -/

/-- What `allocuvm` has done after it returned `r`: the pages up to the new size are fresh, zeroed and
different; or the mappings are the old ones, and only page tables are missing from the free list. -/
def AllocAtomic (oldsz newsz : Nat) (d : PgDir) (m : Mem) (r : Nat) (d' : PgDir) (m' : Mem) : Prop :=
  (r = newsz ∧ Contiguous d' newsz ∧ (∀ b, b < sizeUp oldsz → d'.entry b = d.entry b) ∧
    (∀ b, sizeUp oldsz ≤ b → b < sizeUp newsz → ∃ pa ∈ m.free, pa ∉ m'.free ∧
      d'.entry b = ⟨pa, true, .wu⟩ ∧ ∀ x, OnPage pa x → m'.ram x = 0) ∧
    ∀ b b', sizeUp oldsz ≤ b → b < sizeUp newsz → sizeUp oldsz ≤ b' → b' < sizeUp newsz →
      (d'.entry b).addr = (d'.entry b').addr → pgRoundDown b = pgRoundDown b') ∨
  (r = 0 ∧ (∀ b, b < kernBase → (d'.entry b).present = (d.entry b).present ∧
      ((d.entry b).present = true → d'.entry b = d.entry b)) ∧
    ∀ pg, m'.free.count pg + d'.tables pg = m.free.count pg + d.tables pg)

/-- `allocuvm` is atomic, whenever memory runs out. -/
theorem allocuvm_atomic (hnew : newsz < kernBase) (hgrows : oldsz ≤ newsz) (h : Contiguous d oldsz)
    (hm : m.Freeable L) (hproper : m.Proper) :
    ∃ r d' m', allocuvm L d oldsz newsz m = .ok (r, d', m') ∧ AllocAtomic oldsz newsz d m r d' m' := by
  have hold : oldsz ≤ kernBase := Nat.le_trans hgrows (Nat.le_of_lt hnew)
  have hbelow : ∀ {b}, b < sizeUp newsz → b < uintMod := fun hb => lt_uintMod (below_kernBase hnew hb)
  have hmono := sizeUp_mono hgrows
  have hvacant := h.vacant hold hnew
  obtain ⟨r, d', m', hrun⟩ := allocuvm_ends hvacant hm
  refine ⟨r, d', m', hrun, ?_⟩
  rcases allocuvm_cases hold hnew hgrows hrun with ⟨hr, l, hall⟩ | ⟨hr, hres, hgone, -⟩
  · have hfilled : ∀ b, sizeUp oldsz ≤ b → b < sizeUp newsz → ∃ pa ∈ l, d'.entry b = ⟨pa, true, .wu⟩ ∧
        (m.Proper → ∀ x, OnPage pa x → m'.ram x = 0) := fun b hle hlt =>
      hall.filled b (hbelow hlt) ((inRange_iff hold).mpr ⟨hle, hlt⟩)
    refine .inl ⟨hr, ?_, fun b hb => ?_, fun b hle hlt => ?_,
      fun b b' hle hlt hle' hlt' => hall.distinct hproper.nodup b b' (hbelow hlt) (hbelow hlt')
        ((inRange_iff hold).mpr ⟨hle, hlt⟩) ((inRange_iff hold).mpr ⟨hle', hlt'⟩)⟩
    · intro b hb
      by_cases hin : InRange (pgRoundUp oldsz) newsz b
      · obtain ⟨pa, -, hentry, -⟩ := hall.filled b (lt_uintMod hb) hin
        rw [hentry]
        exact iff_of_true rfl ((inRange_iff hold).mp hin).2
      · rw [hall.reshapes.kept b (lt_uintMod hb) hin, h b hb]
        rw [inRange_iff hold] at hin
        omega
    · exact hall.reshapes.kept b (hbelow (by omega)) fun hin => by
        have := (inRange_iff hold).mp hin
        omega
    · obtain ⟨pa, hpa, hentry, hzero⟩ := hfilled b hle hlt
      have hnodup := hproper.nodup
      rw [hall.takes.free] at hnodup
      exact ⟨pa, hall.takes.mem_free hpa, fun hc => List.disjoint_of_nodup_append hnodup hpa hc, hentry,
        hzero hproper⟩
  · have hsame : ∀ b, b < kernBase → (d'.entry b).present = (d.entry b).present ∧
        ((d.entry b).present = true → d'.entry b = d.entry b) := by
      intro b hb
      by_cases hin : InRange (pgRoundUp oldsz) newsz b
      · rw [hgone b (lt_uintMod hb) hin, hvacant b (lt_uintMod hb) hin]
        exact ⟨rfl, fun hc => by cases hc⟩
      · rw [hres.kept b (lt_uintMod hb) hin]
        exact ⟨rfl, fun _ => rfl⟩
    refine .inr ⟨hr, hsame, fun pg => ?_⟩
    have huses : d'.uses pg = d.uses pg := by
      unfold PgDir.uses
      apply Finset.sum_congr rfl
      intro v hv
      obtain ⟨hpresent, hentry⟩ := hsame (v * pgSize) (by
        have hlt := Finset.mem_range.mp hv
        simp only [userPages, kernBase, pgSize] at *
        omega)
      unfold Pte.uses
      rw [hpresent]
      by_cases hp : (d.entry (v * pgSize)).present = true
      · rw [hentry hp]
      · simp [hp]
    have hcons := hres.conserved pg
    unfold holds at hcons
    omega

theorem lonePage_contiguous (base : Nat) : Contiguous (lonePage base 0) pgSize := by
  intro b hb
  have hiff : (pdx b = 0 ∧ ptx b = 0) ↔ b < sizeUp pgSize := by
    simp only [pdx, ptx, sizeUp, pgSize, kernBase] at *
    omega
  rw [lonePage_entry _ _ hb, ← hiff]
  split <;> simp_all

/-- Above a mapped page: two free pages are enough for two more, one is not. -/
theorem allocuvm_atomic_two : [([0x409000, 0x40a000], 3 * pgSize), ([0x409000], 0)].Forall fun x =>
    ∃ d' m', allocuvm smallLayout (lonePage 0x405000 0) pgSize (3 * pgSize) (onlyFree x.1) = .ok (x.2, d', m') ∧
      AllocAtomic pgSize (3 * pgSize) (lonePage 0x405000 0) (onlyFree x.1) x.2 d' m' := by
  refine List.forall_iff_forall_mem.mpr fun x hx => ?_
  have hvalue : (allocuvm smallLayout (lonePage 0x405000 0) pgSize (3 * pgSize) (onlyFree x.1)).toOption.any
      fun y => y.1 = x.2 := by
    revert x
    decide +kernel
  have hfree : (onlyFree x.1).Freeable smallLayout ∧ (onlyFree x.1).free.Nodup ∧
      ∀ pa ∈ (onlyFree x.1).free, pgSize ∣ pa := by
    unfold Mem.Freeable
    revert x
    decide
  obtain ⟨r, d', m', hrun, hatomic⟩ := allocuvm_atomic (show 3 * pgSize < kernBase by decide)
    (show pgSize ≤ 3 * pgSize by decide) (lonePage_contiguous _) hfree.1 ⟨hfree.2.1, hfree.2.2⟩
  obtain ⟨y, hy, hr⟩ := ok_of_any hvalue
  obtain rfl := Except.ok.inj (hy.symm.trans hrun)
  dsimp only at hr
  rw [hr] at hrun hatomic
  exact ⟨d', m', hrun, hatomic⟩

end Xv6.Vm
