import Xv6.Mkfs.Layout

/-! # `iappend` does what `writei` would do

`mkfs` has its own way to find the block for a byte: the next one that was never used. While
it works on an inode, its image shows a disk of which the blocks below `freeblock` are taken, and on
that disk the kernel would take the same block. So a round of `iappend` is a round of the loop of
`writei`, and what is known of that loop holds of the image.
-/

namespace Xv6.Mkfs

open Function Lib
open Fs (Slot)
open Files (Block Dinode Store Entry addrOrAlloc bmap writeLoop)

variable {sec b inum : Nat} {m : State} {buf : Block} {din : Dinode}

def State.dinodes (m : State) (n : Nat) : Dinode :=
  if n < nInodes then getDinode (m.sectors (iblock n)) (n % ipb) else Dinode.new 0

/-- The disk that the image shows while `din` is the inode `inum` that is worked on. -/
def State.editing (m : State) (inum : Nat) (din : Dinode) : Store where
  bitmap := fun b => decide (b < m.freeblock)
  dinodes := m.dinodes
  blocks := m.sectors
  icache := update (fun _ => ⟨0, 0, 0, false, false, Dinode.new 0⟩) 0
    ⟨rootDev, inum, 1, true, true, din⟩

theorem icache_editing :
    (m.editing inum din).icache 0 = ⟨rootDev, inum, 1, true, true, din⟩ := by
  dsimp only [State.editing]
  rw [update_self]

theorem iblock_bounds {n : Nat} (h : n < nInodes) : inodestart ≤ iblock n ∧ iblock n < bmapstart := by
  unfold nInodes at h
  unfold iblock bmapstart inodestart ninodeblocks ipb nInodes dinodeSize bSize
  omega

theorem dinodes_congr {m' : State} (h : ∀ b, b < nmeta → m'.sectors b = m.sectors b) :
    m'.dinodes = m.dinodes := by
  funext n
  unfold State.dinodes
  split
  · rename_i hn
    have hlt : iblock n < nmeta := Nat.lt_of_lt_of_le (iblock_bounds hn).2 (by decide)
    rw [h _ hlt]
  · rfl

/-- The sectors from `freeblock` on are as they were in the beginning. -/
structure Blank (m : State) : Prop where
  count : m.count = fsSize
  low : nmeta ≤ m.freeblock
  zero : ∀ b, m.freeblock ≤ b → m.sectors b = zeroes

/-- A block has been taken from the blank ones, or more. -/
structure Grew (m m' : State) (k : Nat) : Prop where
  freeblock : m'.freeblock = m.freeblock + k
  freeinode : m'.freeinode = m.freeinode
  low : ∀ b, b < nmeta → m'.sectors b = m.sectors b
  blank : Blank m'

def missing (a : Nat) : Nat := if a = 0 then 1 else 0

abbrev State.taken (m : State) (k : Nat) : State := { m with freeblock := m.freeblock + k }

theorem Blank.taken (h : Blank m) (k : Nat) : Blank (m.taken k) :=
  ⟨h.count, Nat.le_trans h.low (Nat.le_add_right ..), fun b hb => h.zero b (Nat.le_trans (Nat.le_add_right ..) hb)⟩

/-- The kernel would take the next blank block, too. -/
theorem balloc_editing (h : Blank m) (hroom : m.freeblock < fsSize) :
    Files.balloc sb (m.editing inum din) = .ok (m.freeblock, (m.taken 1).editing inum din) := by
  have hfind : (List.range sb.size).find? (fun b => !(m.editing inum din).bitmap b) = some m.freeblock := by
    rw [List.find?_range_eq_some]
    refine ⟨by simp [State.editing], List.mem_range.mpr hroom, fun b hb => ?_⟩
    simpa [State.editing] using hb
  have hbitmap : update (m.editing inum din).bitmap m.freeblock true =
      ((m.taken 1).editing inum din).bitmap := by
    funext b
    by_cases hb : b = m.freeblock
    · rw [hb, update_self]
      simp [State.editing]
    · rw [update_of_ne hb]
      exact decide_eq_decide.mpr (by show b < m.freeblock ↔ b < m.freeblock + 1; omega)
  have hblocks : update (m.editing inum din).blocks m.freeblock (fun _ => 0) =
      ((m.taken 1).editing inum din).blocks := by
    show update m.sectors m.freeblock zeroes = m.sectors
    rw [← h.zero m.freeblock (Nat.le_refl _), update_eq_self]
  have hstep : Files.balloc sb (m.editing inum din) = .ok (m.freeblock,
      ((m.editing inum din).mark m.freeblock true).setBlock m.freeblock fun _ => 0) := by
    unfold Files.balloc
    rw [get_bind_apply]
    rw [hfind]
    rfl
  rw [hstep]
  unfold Store.mark Store.setBlock
  rw [hbitmap]
  rw [hblocks]
  rfl

theorem setAddr_editing (i : Fin (nDirect + 1)) :
    (m.editing inum din).setAddr 0 i b =
      m.editing inum { din with addrs := update din.addrs i b } := by
  unfold Store.setAddr Store.edit Store.set
  rw [icache_editing]
  unfold State.editing
  rw [update_idem]

theorem fillAddr_simulates (h : Blank m) (inum : Nat) (din : Dinode) (i : Fin (nDirect + 1))
    (hroom : m.freeblock + missing (din.addrs i) ≤ fsSize) :
    ∃ din' b, fillAddr din i m = .ok ((din', b), m.taken (missing (din.addrs i))) ∧
      addrOrAlloc sb 0 i (m.editing inum din) =
        .ok (b, (m.taken (missing (din.addrs i))).editing inum din') ∧
      b = if din.addrs i = 0 then m.freeblock else din.addrs i := by
  unfold missing at hroom ⊢
  by_cases hzero : din.addrs i = 0
  · rw [if_pos hzero] at hroom ⊢
    refine ⟨{ din with addrs := update din.addrs i m.freeblock }, m.freeblock, ?_, ?_,
      (if_pos hzero).symm⟩
    · unfold fillAddr
      rw [if_pos hzero]
      rfl
    unfold addrOrAlloc
    rw [get_bind_apply]
    rw [icache_editing, if_pos hzero, bind_of_ok (balloc_editing h (by omega))]
    show Except.ok (m.freeblock, ((m.taken 1).editing inum din).setAddr 0 i m.freeblock) = _
    rw [setAddr_editing]
  · rw [if_neg hzero] at hroom ⊢
    refine ⟨din, din.addrs i, ?_, ?_, (if_neg hzero).symm⟩
    · unfold fillAddr
      rw [if_neg hzero]
      rfl
    · unfold addrOrAlloc
      rw [get_bind_apply]
      rw [icache_editing, if_neg hzero]
      rfl

theorem rsect_of_lt (h : sec < m.count) : rsect sec m = .ok (m.sectors sec, m) := by
  unfold rsect
  rw [get_bind_apply, if_pos h]
  rfl

/-- The state after a sector of the image is written. -/
def State.put (m : State) (sec : Nat) (buf : Block) : State :=
  { m with sectors := update m.sectors sec buf }

theorem sectors_put_self : (m.put sec buf).sectors sec = buf := by
  dsimp only [State.put]
  rw [update_self]

theorem sectors_put_of_ne (h : b ≠ sec) : (m.put sec buf).sectors b = m.sectors b := by
  dsimp only [State.put]
  rw [update_of_ne h]

theorem wsect_of_lt (h : sec < m.count) (buf : Block) : wsect sec buf m = .ok ((), m.put sec buf) := by
  have hmax : max m.count (sec + 1) = m.count := Nat.max_eq_left h
  unfold wsect State.put
  show Except.ok ((), { m with sectors := _, count := max m.count (sec + 1) }) = _
  rw [hmax]

/-- A sector of data is written on the disk that the image shows. -/
theorem put_editing (hlow : nmeta ≤ sec) :
    (m.put sec buf).editing inum din = (m.editing inum din).setBlock sec buf := by
  have hdinodes : (m.put sec buf).dinodes = m.dinodes := by
    apply dinodes_congr
    intro b hb
    exact sectors_put_of_ne (by omega)
  unfold State.editing Store.setBlock
  rw [hdinodes]
  rfl

theorem Grew.put {m' : State} {k : Nat} (h : Grew m m' k) (hlow : nmeta ≤ sec) (hused : sec < m'.freeblock)
    (buf : Block) : Grew m (m'.put sec buf) k := by
  refine ⟨h.freeblock, h.freeinode, fun b hb => ?_, h.blank.count, h.blank.low, fun b hb => ?_⟩
  · rw [← h.low b hb]
    exact sectors_put_of_ne (by omega)
  · rw [← h.blank.zero b hb]
    exact sectors_put_of_ne (by have : m'.freeblock ≤ b := hb; omega)

theorem Blank.grew (h : Blank m) (k : Nat) : Grew m (m.taken k) k :=
  ⟨rfl, rfl, fun _ _ => rfl, h.taken k⟩

def taking (m : State) (din : Dinode) (fbn : Nat) : Nat :=
  if h : fbn < nDirect then missing (din.addrs ⟨fbn, Nat.lt_succ_of_lt h⟩)
  else missing (din.addrs (Fin.last nDirect)) +
    missing (if din.addrs (Fin.last nDirect) = 0 then 0
      else (m.sectors (din.addrs (Fin.last nDirect))).uint (fbn - nDirect))

theorem sectorOf_simulates (h : Blank m) (inum : Nat) (din : Dinode) {fbn : Nat} (hfbn : fbn < maxFile)
    (hroom : m.freeblock + taking m din fbn ≤ fsSize) (hind : din.addrs (Fin.last nDirect) ≠ 0 →
      nmeta ≤ din.addrs (Fin.last nDirect) ∧ din.addrs (Fin.last nDirect) < m.freeblock) :
    ∃ din' b m', sectorOf din fbn m = .ok ((din', b), m') ∧ Grew m m' (taking m din fbn) ∧
      bmap sb 0 fbn (m.editing inum din) = .ok (b, m'.editing inum din') := by
  unfold taking at hroom ⊢
  unfold sectorOf bmap
  by_cases hd : fbn < nDirect
  · rw [dif_pos hd] at hroom ⊢
    rw [dif_pos hd, dif_pos hd]
    obtain ⟨din', b, hfill, hmap, -⟩ := fillAddr_simulates h inum din _ hroom
    exact ⟨din', b, _, hfill, h.grew _, hmap⟩
  have hj : fbn - nDirect < nIndirect := Nat.sub_lt_left_of_lt_add (Nat.le_of_not_lt hd) hfbn
  rw [dif_neg hd] at hroom ⊢
  rw [dif_neg hd, dif_neg hd, if_pos hj]
  obtain ⟨din', ind, hfill, hmap, hind'⟩ := fillAddr_simulates h inum din (Fin.last nDirect) (by omega)
  rw [bind_of_ok hfill, bind_of_ok hmap]
  -- the indirect block is there already, or it is the next blank one
  have hword : nmeta ≤ ind ∧ ind < m.freeblock + missing (din.addrs (Fin.last nDirect)) ∧
      (m.sectors ind).uint (fbn - nDirect) = if din.addrs (Fin.last nDirect) = 0 then 0
        else (m.sectors (din.addrs (Fin.last nDirect))).uint (fbn - nDirect) := by
    by_cases hzero : din.addrs (Fin.last nDirect) = 0
    · have hmiss : missing (din.addrs (Fin.last nDirect)) = 1 := if_pos hzero
      rw [if_pos hzero] at hind'
      rw [if_pos hzero, hind', hmiss, h.zero m.freeblock (Nat.le_refl _)]
      exact ⟨h.low, Nat.lt_succ_self _, Files.Block.uint_zero _⟩
    · rw [if_neg hzero] at hind'
      rw [if_neg hzero, hind']
      have hold := hind hzero
      exact ⟨hold.1, Nat.lt_of_lt_of_le hold.2 (Nat.le_add_right ..), rfl⟩
  obtain ⟨hlow, hused, hword⟩ := hword
  rw [← hword] at hroom ⊢
  generalize missing (din.addrs (Fin.last nDirect)) = k at hroom hused ⊢
  have hblank := h.taken k
  have hcount : ind < (m.taken k).count := by
    rw [hblank.count]
    omega
  dsimp only
  rw [bind_of_ok (rsect_of_lt hcount), get_bind_apply]
  show ∃ din'' b m', (if (m.sectors ind).uint (fbn - nDirect) = 0 then _ else _ : Code State _) _ = _ ∧ _ ∧
    (if (m.sectors ind).uint (fbn - nDirect) = 0 then _ else _ : Code Store _) _ = _
  by_cases hzero : (m.sectors ind).uint (fbn - nDirect) = 0
  · have hmiss : missing ((m.sectors ind).uint (fbn - nDirect)) = 1 := if_pos hzero
    rw [hmiss] at hroom ⊢
    rw [if_pos hzero, if_pos hzero]
    have hgrew : Grew m ((m.taken k).taken 1) (k + 1) :=
      ⟨Nat.add_assoc .., rfl, fun _ _ => rfl, hblank.taken 1⟩
    refine ⟨din', m.freeblock + k, ((m.taken k).taken 1).put ind
      ((m.sectors ind).setUint (fbn - nDirect) (m.freeblock + k)), ?_,
      hgrew.put hlow (Nat.lt_succ_of_lt hused) _, ?_⟩
    · rw [bind_of_ok (show nextBlock (m.taken k) = .ok (m.freeblock + k, (m.taken k).taken 1) from rfl),
        bind_of_ok (wsect_of_lt (m := (m.taken k).taken 1) hcount _)]
      rfl
    · rw [bind_of_ok (balloc_editing hblank (by show m.freeblock + k < fsSize; omega)),
        put_editing hlow]
      rfl
  · have hmiss : missing ((m.sectors ind).uint (fbn - nDirect)) = 0 := if_neg hzero
    rw [hmiss, Nat.add_zero] at hroom ⊢
    rw [if_neg hzero, if_neg hzero]
    exact ⟨din', _, m.taken k, rfl, h.grew k, rfl⟩

/-! ## Rounds of `iappend` -/

/-- The blocks of a file of the given size, with its indirect block. -/
def blocksFor (size : Nat) : Nat :=
  (size + bSize - 1) / bSize + if nDirect * bSize < size then 1 else 0

theorem blocksFor_mono {a : Nat} (h : a ≤ b) : blocksFor a ≤ blocksFor b := by
  unfold blocksFor bSize nDirect
  split <;> split <;> omega

/-- The inode `din` has exactly the blocks of a file of size `off`. -/
structure Appending (m : State) (inum : Nat) (din : Dinode) (off : Nat) : Prop where
  blank : Blank m
  kept : (m.editing inum din).Kept sb 0
  type : din.type ≠ 0
  shape : ∀ bn (h : bn < maxFile),
    (m.editing inum din).held 0 (inum, .ofIndex bn h) ≠ none ↔ bn * bSize < off
  indirect : (m.editing inum din).held 0 (inum, .indirect) ≠ none ↔ nDirect * bSize < off

section Rounds

variable {m : State} {inum off : Nat} {din : Dinode}

theorem view_editing : (m.editing inum din).view 0 inum = din := by
  have hself := Files.view_self (m.editing inum din) 0
  rw [icache_editing] at hself
  exact hself

theorem held_editing (htype : din.type ≠ 0) (e : Entry) :
    (m.editing inum din).held 0 (inum, e) ≠ none ↔ din.entry m.sectors e ≠ 0 := by
  rw [Ne, Files.held_eq_none]
  rw [view_editing, not_or]
  exact and_iff_right htype

/-- What an entry holds lies between the metadata and the blank sectors. -/
theorem Appending.bounds (h : (m.editing inum din).Kept sb 0) {p : Nat × Entry}
    (hp : (m.editing inum din).held 0 p = some b) : nmeta ≤ b ∧ b < m.freeblock := by
  obtain ⟨hlow, -, hbit⟩ := h.alloc.marked_of_held hp
  exact ⟨hlow, of_decide_eq_true hbit⟩

theorem Appending.taking_eq (h : Appending m inum din off) (hbn : off / bSize < maxFile) {n : Nat}
    (hpos : 0 < n) (hlen : off % bSize + n ≤ bSize) :
    taking m din (off / bSize) + blocksFor off = blocksFor (off + n) := by
  have hmissing : ∀ {a : Nat} {P : Prop} [Decidable P], (a ≠ 0 ↔ P) →
      missing a = if P then 0 else 1 := by
    intro a P _ hiff
    unfold missing
    by_cases ha : a = 0
    · rw [if_pos ha, if_neg fun hP => hiff.mpr hP ha]
    · rw [if_neg ha, if_pos (hiff.mp ha)]
  have hshape := (held_editing h.type _).symm.trans (h.shape _ hbn)
  unfold taking
  by_cases hd : off / bSize < nDirect
  · have hindex : Entry.ofIndex (off / bSize) hbn = .direct ⟨off / bSize, hd⟩ := dif_pos hd
    rw [hindex] at hshape
    rw [dif_pos hd]
    have hmiss : missing (din.addrs ⟨off / bSize, Nat.lt_succ_of_lt hd⟩) =
        if off / bSize * bSize < off then 0 else 1 := hmissing hshape
    rw [hmiss]
    unfold blocksFor nDirect bSize at *
    split <;> split <;> split <;> omega
  · have hj : off / bSize - nDirect < nIndirect := Nat.sub_lt_left_of_lt_add (Nat.le_of_not_lt hd) hbn
    have hindex : Entry.ofIndex (off / bSize) hbn = .pointed ⟨off / bSize - nDirect, hj⟩ := dif_neg hd
    rw [hindex] at hshape
    rw [dif_neg hd]
    have hmiss : missing (if din.addrs (Fin.last nDirect) = 0 then 0
        else (m.sectors (din.addrs (Fin.last nDirect))).uint (off / bSize - nDirect)) =
        if off / bSize * bSize < off then 0 else 1 := hmissing hshape
    have hind : missing (din.addrs (Fin.last nDirect)) = if nDirect * bSize < off then 0 else 1 :=
      hmissing ((held_editing h.type _).symm.trans h.indirect)
    rw [hmiss, hind]
    unfold blocksFor nDirect bSize at *
    split <;> split <;> split <;> omega

/-- One round of the loop, on the image and on the disk that it shows. -/
theorem Appending.round (h : Appending m inum din off) (hbn : off / bSize < maxFile) (src : List UInt8)
    (hpos : 0 < src.length) (hlen : off % bSize + src.length ≤ bSize)
    (hroom : m.freeblock + blocksFor (off + src.length) ≤ fsSize + blocksFor off) :
    ∃ din' b m', sectorOf din (off / bSize) m = .ok ((din', b), m') ∧
      bmap sb 0 (off / bSize) (m.editing inum din) = .ok (b, m'.editing inum din') ∧
      nmeta ≤ b ∧ b < m'.freeblock ∧ m'.freeblock ≤ fsSize ∧
      Grew m (m'.put b ((m'.sectors b).write (off % bSize) src)) (taking m din (off / bSize)) ∧
      Appending (m'.put b ((m'.sectors b).write (off % bSize) src)) inum din' (off + src.length) := by
  have htaking := h.taking_eq hbn hpos hlen
  have hinum : ((m.editing inum din).icache 0).inum = inum := by rw [icache_editing]
  have hcopy : ((m.editing inum din).icache 0).copy = din := by rw [icache_editing]
  have hind : din.addrs (Fin.last nDirect) ≠ 0 →
      nmeta ≤ din.addrs (Fin.last nDirect) ∧ din.addrs (Fin.last nDirect) < m.freeblock := by
    intro hne
    refine Appending.bounds h.kept (p := (inum, .indirect)) (Files.held_eq_some.mpr ?_)
    rw [view_editing]
    exact ⟨h.type, rfl, hne⟩
  obtain ⟨din', b, m', hsector, hgrew, hmap⟩ := sectorOf_simulates h.blank inum din hbn (by omega) hind
  have htype : ((m.editing inum din).icache 0).copy.type ≠ 0 := by
    rw [hcopy]
    exact h.type
  obtain ⟨hkept, hmapped, hdirect, -⟩ := (Files.bmap_ends h.kept htype (by decide) hbn).returned hmap
  have hheld := hmapped.held
  have honly := hmapped.only
  rw [hinum] at hheld honly hdirect
  obtain ⟨hlow, hused⟩ := Appending.bounds hkept hheld
  have hgrew' := hgrew.put hlow hused ((m'.sectors b).write (off % bSize) src)
  have htype' : din'.type ≠ 0 := by
    have hgrown := hmapped.grown.copy
    rw [icache_editing, icache_editing] at hgrown
    dsimp only at hgrown
    rw [hgrown]
    exact h.type
  have hsame : ∀ q, ((m'.put b ((m'.sectors b).write (off % bSize) src)).editing inum din').held 0 q =
      (m'.editing inum din').held 0 q := by
    intro q
    rw [put_editing hlow]
    exact Files.held_setBlock hkept hheld (Files.Entry.ofIndex_ne_indirect (h := hbn)) _ q
  refine ⟨din', b, m', hsector, hmap, hlow, hused, ?_, hgrew', hgrew'.blank, ?_, htype', fun bn hlt => ?_, ?_⟩
  · rw [hgrew.freeblock]
    omega
  · exact hkept.congr hsame
  · rw [hsame]
    by_cases hat : bn = off / bSize
    · subst hat
      rw [hheld]
      refine iff_of_true nofun ?_
      have := Nat.div_mul_le_self off bSize
      omega
    · rw [honly _ (fun heq => hat (Files.Entry.ofIndex_inj (Prod.mk.inj heq).2))
        (fun heq => Files.Entry.ofIndex_ne_indirect (Prod.mk.inj heq).2), h.shape bn hlt]
      unfold bSize at *
      omega
  · rw [hsame]
    by_cases hd : off / bSize < nDirect
    · rw [hdirect hd, h.indirect]
      unfold nDirect bSize at *
      omega
    refine iff_of_true (fun hnone => ?_) (by unfold nDirect bSize at *; omega)
    have hindex : Entry.ofIndex (off / bSize) hbn = .pointed ⟨off / bSize - nDirect,
        Nat.sub_lt_left_of_lt_add (Nat.le_of_not_lt hd) hbn⟩ := dif_neg hd
    rw [hindex] at hheld
    have hne : (m'.editing inum din').held 0 (inum, .pointed ⟨off / bSize - nDirect,
        Nat.sub_lt_left_of_lt_add (Nat.le_of_not_lt hd) hbn⟩) ≠ none := by
      rw [hheld]
      exact nofun
    rw [held_editing htype'] at hne
    refine hne (if_pos ?_)
    by_contra hpos'
    exact (held_editing htype' .indirect).mpr hpos' hnone

/-- The loop of `iappend` writes what the loop of `writei` would write. -/
theorem appendLoop_simulates {fuel : Nat} {p : List UInt8} (h : Appending m inum din off)
    (hfuel : p.length ≤ fuel) (hmax : off + p.length ≤ maxFile * bSize)
    (hroom : m.freeblock + blocksFor (off + p.length) ≤ fsSize + blocksFor off) :
    ∃ din' m' k, appendLoop fuel din off p m = .ok ((din', off + p.length), m') ∧ Grew m m' k ∧
      k + blocksFor off = blocksFor (off + p.length) ∧ Appending m' inum din' (off + p.length) ∧
      writeLoop sb 0 fuel p off (m.editing inum din) = .ok ((), m'.editing inum din') := by
  induction fuel generalizing m din off p with
  | zero =>
    obtain rfl := List.length_eq_zero_iff.mp (Nat.le_zero.mp hfuel)
    exact ⟨din, m, 0, rfl, h.blank.grew 0, Nat.zero_add _, h, rfl⟩
  | succ fuel ih =>
    by_cases hnil : p = []
    · subst hnil
      exact ⟨din, m, 0, rfl, h.blank.grew 0, Nat.zero_add _, h, rfl⟩
    have hpos : 0 < p.length := List.length_pos_iff.mpr hnil
    have hmod := Nat.mod_lt off (show 0 < bSize by decide)
    have hbn : off / bSize < maxFile := Files.index_lt (by omega)
    -- both programs write up to the end of the block
    have hplace : off - off / bSize * bSize = off % bSize := by
      unfold bSize
      omega
    have hrest : (off / bSize + 1) * bSize - off = bSize - off % bSize := by
      unfold bSize
      omega
    have htake : (p.take (min p.length (bSize - off % bSize))).length =
        min p.length (bSize - off % bSize) := by
      rw [List.length_take]
      omega
    have hdrop : off + min p.length (bSize - off % bSize) +
        (p.drop (min p.length (bSize - off % bSize))).length = off + p.length := by
      rw [List.length_drop]
      omega
    have hmono := blocksFor_mono (show off + min p.length (bSize - off % bSize) ≤ off + p.length by omega)
    obtain ⟨din1, b, m1, hsector, hmap, hlow, hused, hsize, hgrew, hnext⟩ :=
      h.round hbn (p.take (min p.length (bSize - off % bSize))) (by omega) (by omega)
        (by rw [htake]; omega)
    have htaking := h.taking_eq hbn (n := min p.length (bSize - off % bSize)) (by omega) (by omega)
    rw [htake] at hnext
    have hfree := hgrew.freeblock
    obtain ⟨din', m', k, hloop, hgrew', hk, happending, hwrite⟩ :=
      ih (p := p.drop (min p.length (bSize - off % bSize))) hnext
      (by rw [List.length_drop]; omega) (by rw [hdrop]; exact hmax) (by rw [hdrop, hfree]; omega)
    rw [hdrop] at hloop hk happending
    have hcount : b < m1.count := by
      have : m1.count = fsSize := hgrew.blank.count
      omega
    refine ⟨din', m', taking m din (off / bSize) + k, ?_, ?_, by omega, happending, ?_⟩
    · unfold appendLoop
      rw [if_neg hnil, if_pos hbn, bind_of_ok hsector, hrest, hplace]
      dsimp only
      rw [bind_of_ok (rsect_of_lt hcount), bind_of_ok (wsect_of_lt hcount _)]
      exact hloop
    · refine ⟨?_, hgrew'.freeinode.trans hgrew.freeinode, fun c hc => ?_, hgrew'.blank⟩
      · rw [hgrew'.freeblock, hfree, Nat.add_assoc]
      · rw [hgrew'.low c hc, hgrew.low c hc]
    · unfold writeLoop
      rw [if_neg hnil, bind_of_ok hmap, modify_bind_apply, ← put_editing hlow]
      exact hwrite

end Rounds

end Xv6.Mkfs
