import Mathlib.Algebra.BigOperators.Group.Finset.Piecewise
import Xv6.Lib.Allocation
import Xv6.Lib.Count
import Xv6.Files.Resources

/-! # The blocks of inodes

An inode names its blocks in its direct entries, in its indirect entry and in the entries of the
indirect block. `Books` says that no block is named twice and that the bitmap marks the blocks of
the data area that are named. While a call works on an inode, the copy in the cache is ahead of
the disk, so the books are kept of the disk with that copy in its place.
-/

namespace Xv6.Files

open Function Lib
open Fs (Slot tDir tDev)

variable {bn b n : Nat} {D : Nat → Dinode} {blocks blocks' : Nat → Block} {d : Dinode} {bitmap : Nat → Bool}
  {ip : Slot} {s t : Store} {i : Fin (nDirect + 1)}

/-! ## Entries -/

/-- The places in an inode, and in its indirect block, that name a block. -/
inductive Entry
  | direct (i : Fin nDirect)
  | indirect
  | pointed (j : Fin nIndirect)
  deriving DecidableEq

/-- The word `j` of the indirect block `bp`, if there is one. -/
def pointer (blocks : Nat → Block) (bp : Nat) (j : Fin nIndirect) : Nat :=
  if bp = 0 then 0 else (blocks bp).uint j

def Dinode.entry (blocks : Nat → Block) (d : Dinode) : Entry → Nat
  | .direct i => d.addrs i.castSucc
  | .indirect => d.addrs (Fin.last nDirect)
  | .pointed j => pointer blocks (d.addrs (Fin.last nDirect)) j

def Entry.ofIndex (bn : Nat) (h : bn < maxFile) : Entry :=
  if hd : bn < nDirect then .direct ⟨bn, hd⟩
  else .pointed ⟨bn - nDirect, Nat.sub_lt_left_of_lt_add (Nat.le_of_not_lt hd) h⟩

theorem Entry.ofIndex_inj {bn' : Nat} {h : bn < maxFile} {h' : bn' < maxFile}
    (heq : ofIndex bn h = ofIndex bn' h') : bn = bn' := by
  unfold ofIndex at heq
  split at heq <;> split at heq
  · cases heq
    rfl
  · cases heq
  · cases heq
  · injection heq with heq
    have := congrArg Fin.val heq
    simp only at this
    omega

theorem Entry.ofIndex_ne_indirect {h : bn < maxFile} : ofIndex bn h ≠ .indirect := by
  unfold ofIndex
  split
  · exact nofun
  · exact nofun

def Dinode.block (blocks : Nat → Block) (d : Dinode) (bn : Nat) : Nat :=
  if h : bn < maxFile then d.entry blocks (.ofIndex bn h) else 0

/-- The blocks that the entries of allocated inodes name. -/
def held (D : Nat → Dinode) (blocks : Nat → Block) (p : Nat × Entry) : Option Nat :=
  if (D p.1).type = 0 ∨ (D p.1).entry blocks p.2 = 0 then none else some ((D p.1).entry blocks p.2)

theorem held_eq_some {p : Nat × Entry} :
    held D blocks p = some b ↔ (D p.1).type ≠ 0 ∧ (D p.1).entry blocks p.2 = b ∧ b ≠ 0 := by
  unfold held
  split
  · rename_i h
    refine iff_of_false nofun ?_
    rintro ⟨htype, rfl, hb⟩
    exact h.elim htype hb
  rename_i h
  rw [not_or] at h
  rw [Option.some.injEq]
  constructor
  · rintro rfl
    exact ⟨h.1, rfl, h.2⟩
  · exact fun hall => hall.2.1

theorem held_eq_none {p : Nat × Entry} :
    held D blocks p = none ↔ (D p.1).type = 0 ∨ (D p.1).entry blocks p.2 = 0 := by
  unfold held
  split
  · exact iff_of_true rfl ‹_›
  · exact iff_of_false nofun ‹_›

theorem held_congr {D' : Nat → Dinode} {p : Nat × Entry} (htype : (D' p.1).type = (D p.1).type)
    (hentry : (D p.1).type ≠ 0 → (D' p.1).entry blocks' p.2 = (D p.1).entry blocks p.2) :
    held D' blocks' p = held D blocks p := by
  unfold held
  rw [htype]
  by_cases hz : (D p.1).type = 0
  · simp only [hz, true_or, if_true]
  · rw [hentry hz]

theorem held_update_congr {d' : Dinode} (htype : d'.type = d.type) (haddrs : d'.addrs = d.addrs) (p : Nat × Entry) :
    held (update D n d') blocks p = held (update D n d) blocks p := by
  by_cases hp : p.1 = n
  · have hentry : ∀ e, d'.entry blocks e = d.entry blocks e := by
      intro e
      cases e with
      | direct i | indirect => exact congrFun haddrs _
      | pointed j => exact congrArg (fun a => pointer blocks (a (Fin.last nDirect)) j) haddrs
    refine held_congr ?_ fun _ => ?_
    · rw [hp, update_self, update_self, htype]
    · rw [hp, update_self, update_self, hentry]
  · refine held_congr ?_ fun _ => ?_
    all_goals rw [update_of_ne hp, update_of_ne hp]

theorem held_update_free {d' : Dinode} (hd : d.type = 0 ∨ d.addrs = fun _ => 0) (hd' : d'.type = 0 ∨ d'.addrs = fun _ => 0) (p : Nat × Entry) :
    held (update D n d') blocks p = held (update D n d) blocks p := by
  have hnone : ∀ {d : Dinode}, (d.type = 0 ∨ d.addrs = fun _ => 0) → p.1 = n →
      held (update D n d) blocks p = none := by
    intro d hd hp
    rw [held_eq_none, hp, update_self]
    refine hd.imp id fun hd => ?_
    cases p.2 with
    | direct i | indirect => exact congrFun hd _
    | pointed j => exact congrArg (fun a => pointer blocks (a (Fin.last nDirect)) j) hd
  by_cases hp : p.1 = n
  · rw [hnone hd hp, hnone hd' hp]
  · refine held_congr ?_ fun _ => ?_
    all_goals rw [update_of_ne hp, update_of_ne hp]

/-! ## Words of an indirect block -/

theorem Block.uint_zero (j : Nat) : Block.uint (fun _ => 0) j = 0 := rfl

theorem Block.uint_setUint_self (b : Block) (j : Nat) {v : Nat} (hv : v < 2 ^ 32) :
    (b.setUint j v).uint j = v := by
  have hbyte : ∀ r, r < 4 → (b.setUint j v (4 * j + r)).toNat = v / 256 ^ r % 256 := by
    intro r hr
    have hdiv : (4 * j + r) / 4 = j := by omega
    have hmod : (4 * j + r) % 4 = r := by omega
    unfold setUint
    rw [hdiv, hmod, if_pos rfl, UInt8.toNat_ofNat']
  have h0 := hbyte 0 (by omega)
  have h1 := hbyte 1 (by omega)
  have h2 := hbyte 2 (by omega)
  have h3 := hbyte 3 (by omega)
  unfold uint
  rw [show 4 * j = 4 * j + 0 from rfl, h0, h1, h2, h3]
  omega

theorem Block.uint_setUint_of_ne (b : Block) {j j' : Nat} (v : Nat) (h : j' ≠ j) :
    (b.setUint j v).uint j' = b.uint j' := by
  have hbyte : ∀ r, r < 4 → b.setUint j v (4 * j' + r) = b (4 * j' + r) := by
    intro r hr
    have hdiv : (4 * j' + r) / 4 = j' := by omega
    unfold setUint
    rw [hdiv, if_neg h]
  unfold uint
  rw [show 4 * j' = 4 * j' + 0 from rfl, hbyte 0 (by omega), hbyte 1 (by omega), hbyte 2 (by omega),
    hbyte 3 (by omega)]

/-! ## Books -/

def Superblock.dataStart (sb : Superblock) : Nat := sb.bmapstart + (sb.size / (bSize * 8) + 1)

/-- The bit of a block of the data area is set. -/
def Marked (sb : Superblock) (bitmap : Nat → Bool) (b : Nat) : Prop :=
  sb.dataStart ≤ b ∧ b < sb.size ∧ bitmap b = true

/-- The bitmap marks what the places hold, and all that lies before the data area. -/
structure Agrees (sb : Superblock) (f : Nat × Entry → Option Nat) (bitmap : Nat → Bool) : Prop where
  alloc : Allocated f (Marked sb bitmap)
  reserved : ∀ b, b < sb.dataStart → bitmap b = true

theorem Agrees.congr {sb : Superblock} {f f' : Nat × Entry → Option Nat} (h : Agrees sb f bitmap)
    (hf : ∀ p, f' p = f p) : Agrees sb f' bitmap :=
  ⟨h.alloc.congr hf fun _ => Iff.rfl, h.reserved⟩

/-- The bitmap and the entries of the inodes agree. -/
abbrev Books (sb : Superblock) (D : Nat → Dinode) (bitmap : Nat → Bool) (blocks : Nat → Block) : Prop :=
  Agrees sb (held D blocks) bitmap

section Books

variable {sb : Superblock} {D D' : Nat → Dinode} {bitmap : Nat → Bool} {blocks blocks' : Nat → Block}
  {p : Nat × Entry} {b c : Nat}

theorem Books.marked (h : Books sb D bitmap blocks) (hp : held D blocks p = some c) : bitmap c = true :=
  (h.alloc.marked_of_held hp).2.2

theorem Books.ne_of_free (h : Books sb D bitmap blocks) (hb : bitmap b = false)
    (hp : held D blocks p = some c) : c ≠ b := by
  rintro rfl
  rw [h.marked hp] at hb
  cases hb

theorem Books.empty (hnone : ∀ p, held D blocks p = none)
    (hbits : ∀ b, bitmap b = true ↔ b < sb.dataStart) : Books sb D bitmap blocks := by
  refine ⟨⟨fun {p q b} hp => ?_, fun {b} => ?_⟩, fun b => (hbits b).mpr⟩
  · rw [hnone] at hp
    cases hp
  · simp only [Marked, hbits, hnone, reduceCtorEq, exists_false, iff_false]
    omega

theorem Books.take (h : Books sb D bitmap blocks) (hsize : b < sb.size) (hb : bitmap b = false)
    (hp : held D blocks p = none)
    (hheld : ∀ q, held D' blocks' q = if q = p then some b else held D blocks q) :
    Books sb D' (update bitmap b true) blocks' := by
  have hstart : sb.dataStart ≤ b := by
    by_contra hlt
    rw [h.reserved b (by omega)] at hb
    cases hb
  have hnew := h.alloc.take hp (b := b) fun hm => by
    rw [hm.2.2] at hb
    cases hb
  refine ⟨hnew.congr (fun q => ?_) fun c => ?_, fun c hc => ?_⟩
  · rw [hheld, update_apply]
  · unfold Marked
    by_cases hcb : c = b
    · subst hcb
      rw [update_self]
      exact iff_of_true ⟨hstart, hsize, rfl⟩ (.inl rfl)
    · rw [update_of_ne hcb, or_iff_right hcb]
  · by_cases hcb : c = b
    · rw [hcb, update_self]
    · rw [update_of_ne hcb]
      exact h.reserved c hc

end Books

/-! ## Growing a file -/

/-- The inodes as the caller sees them that has `ip` locked. -/
def Store.view (s : Store) (ip : Slot) : Nat → Dinode :=
  update s.dinodes (s.icache ip).inum (s.icache ip).copy

theorem view_self (s : Store) (ip : Slot) : s.view ip (s.icache ip).inum = (s.icache ip).copy :=
  update_self ..

abbrev Store.Kept (sb : Superblock) (s : Store) (ip : Slot) : Prop :=
  Books sb (s.view ip) s.bitmap s.blocks

/-- The block that an entry names in the view of `ip`. -/
abbrev Store.held (s : Store) (ip : Slot) : Nat × Entry → Option Nat := Files.held (s.view ip) s.blocks

theorem held_own {e : Entry} : s.held ip ((s.icache ip).inum, e) = some b ↔
    (s.icache ip).copy.type ≠ 0 ∧ (s.icache ip).copy.entry s.blocks e = b ∧ b ≠ 0 := by
  rw [held_eq_some]
  rw [view_self]

theorem held_own_none {e : Entry} : s.held ip ((s.icache ip).inum, e) = none ↔
    (s.icache ip).copy.type = 0 ∨ (s.icache ip).copy.entry s.blocks e = 0 := by
  rw [held_eq_none]
  rw [view_self]

/-- Blocks are entered in `ip`; what was entered stays. -/
structure Extended (ip : Slot) (s t : Store) : Prop where
  steady : Steady ip s t
  dinodes : t.dinodes = s.dinodes
  copy : (t.icache ip).copy = { (s.icache ip).copy with addrs := (t.icache ip).copy.addrs }
  held : ∀ p b, s.held ip p = some b → t.held ip p = some b
  others : ∀ n e, n ≠ (s.icache ip).inum → t.held ip (n, e) = s.held ip (n, e)

/-- What `bmap` does at most: the bytes of the files stay too. -/
structure Grown (ip : Slot) (s t : Store) : Prop extends Extended ip s t where
  data : ∀ n e b, s.held ip (n, e) = some b → e ≠ .indirect → t.blocks b = s.blocks b

theorem Extended.refl (ip : Slot) (s : Store) : Extended ip s s :=
  ⟨.refl ip s, rfl, rfl, fun _ _ => id, fun _ _ _ => rfl⟩

theorem Extended.inum (h : Extended ip s t) :
    (t.icache ip).inum = (s.icache ip).inum := (h.steady.fields ip).2.1

theorem Extended.trans {u : Store} (h : Extended ip s t) (h' : Extended ip t u) : Extended ip s u := by
  refine ⟨h.steady.trans h'.steady, h'.dinodes.trans h.dinodes, ?_, fun p b hp => ?_, fun n e hn => ?_⟩
  · rw [h'.copy, h.copy]
  · exact h'.held p b (h.held p b hp)
  · rw [h'.others n e (by rw [h.inum]; exact hn), h.others n e hn]

theorem Grown.refl (ip : Slot) (s : Store) : Grown ip s s := ⟨.refl ip s, fun _ _ _ _ _ => rfl⟩

theorem Grown.trans {u : Store} (h : Grown ip s t) (h' : Grown ip t u) : Grown ip s u :=
  ⟨h.toExtended.trans h'.toExtended,
    fun n e b hp he => (h'.data n e b (h.held _ b hp) he).trans (h.data n e b hp he)⟩

/-! ## Free blocks -/

/-- The number of blocks that are not in use. -/
def Store.free (sb : Superblock) (s : Store) : Nat :=
  ((Finset.range sb.size).filter fun b => s.bitmap b = false).card

/-- How many of the entries `W` of `ip` name no block. -/
def Store.lacks (s : Store) (ip : Slot) (W : Finset Entry) : Nat :=
  (W.filter fun e => s.held ip ((s.icache ip).inum, e) = none).card

/-- The blocks taken between the two states went to entries of `way`, one to each. -/
def Spent (sb : Superblock) (ip : Slot) (way : Finset Entry) (s t : Store) : Prop :=
  ∀ W, way ⊆ W → t.lacks ip W + s.free sb = s.lacks ip W + t.free sb

/-- `balloc` stops, and the entries of `way` lack more blocks than there are. -/
def Short (sb : Superblock) (ip : Slot) (way : Finset Entry) (s : Store) (e : String) : Prop :=
  e = "balloc: out of blocks" ∧ ∀ W, way ⊆ W → s.free sb < s.lacks ip W

section Spent

variable {sb : Superblock} {way way' : Finset Entry} {e : String}

theorem Spent.trans {u : Store} (h : Spent sb ip way s t) (h' : Spent sb ip way t u) : Spent sb ip way s u := by
  intro W hW
  have := h W hW
  have := h' W hW
  omega

theorem Spent.short (h : Spent sb ip way s t) (h' : Short sb ip way t e) : Short sb ip way s e := by
  refine ⟨h'.1, fun W hW => ?_⟩
  have := h W hW
  have := h'.2 W hW
  omega

theorem Spent.mono (h : Spent sb ip way s t) (hsub : way ⊆ way') : Spent sb ip way' s t :=
  fun W hW => h W (hsub.trans hW)

theorem Short.mono (h : Short sb ip way s e) (hsub : way ⊆ way') : Short sb ip way' s e :=
  ⟨h.1, fun W hW => h.2 W (hsub.trans hW)⟩

end Spent

section Grow

variable {sb : Superblock} {s : Store} {ip : Slot}

theorem spent_enter {e : Entry} (hsize : b < sb.size) (hb : s.bitmap b = false)
    (hinum : (t.icache ip).inum = (s.icache ip).inum) (hbitmap : t.bitmap = update s.bitmap b true)
    (hnone : s.held ip ((s.icache ip).inum, e) = none)
    (hheld : ∀ q, t.held ip q = if q = ((s.icache ip).inum, e) then some b else s.held ip q) :
    Spent sb ip {e} s t := by
  intro W hW
  have hfree := sum_change (f := fun c => if update s.bitmap b true c = false then 1 else 0)
    (g := fun c => if s.bitmap c = false then 1 else 0) (Finset.mem_range.mpr hsize)
    fun c _ hc => by rw [update_of_ne hc]
  have hlacks := sum_change (f := fun e' => if t.held ip ((s.icache ip).inum, e') = none then 1 else 0)
    (g := fun e' => if s.held ip ((s.icache ip).inum, e') = none then 1 else 0)
    (hW (Finset.mem_singleton_self e)) fun e' _ he => by
      rw [hheld, if_neg fun heq => he (congrArg Prod.snd heq)]
  simp only [update_self, hb, hnone, hheld ((s.icache ip).inum, e), if_pos, reduceCtorEq, if_false,
    Bool.true_eq_false] at hfree hlacks
  unfold Store.free Store.lacks
  rw [hinum, hbitmap]
  simp only [Finset.card_filter]
  omega

theorem short_of_free {e : Entry} (hfree : s.free sb = 0) (hnone : s.held ip ((s.icache ip).inum, e) = none) :
    Short sb ip {e} s "balloc: out of blocks" := by
  refine ⟨rfl, fun W hW => ?_⟩
  rw [hfree]
  exact Finset.card_pos.mpr ⟨e, Finset.mem_filter.mpr ⟨hW (Finset.mem_singleton_self e), hnone⟩⟩

theorem balloc_ends : Ends (balloc sb) s (fun b t => b < sb.size ∧ s.bitmap b = false ∧
      t = (s.mark b true).setBlock b fun _ => 0)
      fun e => e = "balloc: out of blocks" ∧ s.free sb = 0 := by
  unfold balloc
  rw [ends_get_bind]
  cases hfind : (List.range sb.size).find? fun b => !s.bitmap b with
  | none =>
    refine ⟨rfl, Finset.card_eq_zero.mpr (Finset.filter_eq_empty_iff.mpr fun b hb => ?_)⟩
    rw [List.find?_eq_none] at hfind
    simpa using hfind b (List.mem_range.mpr (Finset.mem_range.mp hb))
  | some b =>
    have hfree : s.bitmap b = false := by simpa using List.find?_some hfind
    exact ⟨List.mem_range.mp (List.mem_of_find?_eq_some hfind), hfree, rfl⟩

theorem Store.Kept.enter (h : s.Kept sb ip) (hsize : b < sb.size) (hb : s.bitmap b = false) {e : Entry}
    (hp : s.held ip ((s.icache ip).inum, e) = none) (hsteady : Steady ip s t)
    (hdinodes : t.dinodes = s.dinodes)
    (hcopy : (t.icache ip).copy = { (s.icache ip).copy with addrs := (t.icache ip).copy.addrs })
    (hbitmap : t.bitmap = update s.bitmap b true)
    (hheld : ∀ q, t.held ip q = if q = ((s.icache ip).inum, e) then some b else s.held ip q)
    (hdata : ∀ n e c, s.held ip (n, e) = some c → e ≠ .indirect → t.blocks c = s.blocks c) :
    t.Kept sb ip ∧ Grown ip s t ∧
      ∀ q, t.held ip q = if q = ((s.icache ip).inum, e) then some b else s.held ip q := by
  refine ⟨?_, ⟨⟨hsteady, hdinodes, hcopy, fun q c hq => ?_, fun n e' hn => ?_⟩, hdata⟩, hheld⟩
  · unfold Store.Kept
    rw [hbitmap]
    exact Books.take h hsize hb hp hheld
  · rw [hheld, if_neg, hq]
    rintro rfl
    rw [hp] at hq
    cases hq
  · rw [hheld, if_neg fun heq => hn (Prod.mk.inj heq).1]

theorem pointer_of_eq {bp : Nat} (h : bp ≠ 0 → blocks' bp = blocks bp) (j : Fin nIndirect) :
    pointer blocks' bp j = pointer blocks bp j := by
  unfold pointer
  split
  · rfl
  · rw [h ‹_›]

theorem entry_of_eq (e : Entry) (h : d.addrs (Fin.last nDirect) ≠ 0 →
      blocks' (d.addrs (Fin.last nDirect)) = blocks (d.addrs (Fin.last nDirect))) :
    d.entry blocks' e = d.entry blocks e := by
  cases e with
  | direct i => rfl
  | indirect => rfl
  | pointed j => exact pointer_of_eq h j

theorem Books.indirect_ne (h : Books sb D bitmap blocks) (hb : bitmap b = false) (htype : (D n).type ≠ 0)
    (hne : (D n).addrs (Fin.last nDirect) ≠ 0) : (D n).addrs (Fin.last nDirect) ≠ b :=
  h.ne_of_free hb (p := (n, .indirect)) (held_eq_some.mpr ⟨htype, rfl, hne⟩)

theorem Books.pos_of_free (h : Books sb D bitmap blocks) (hb : bitmap b = false) : b ≠ 0 := by
  rintro rfl
  rw [h.reserved 0 (Nat.succ_pos _)] at hb
  cases hb

/-- The state after `addrs[i]` of `ip` got the new block `b`. -/
abbrev Store.grow (s : Store) (ip : Slot) (i : Fin (nDirect + 1)) (b : Nat) : Store :=
  ((s.mark b true).setBlock b fun _ => 0).setAddr ip i b

theorem icache_setAddr (v : Nat) :
    (s.setAddr ip i v).icache ip = { s.icache ip with
      copy := { (s.icache ip).copy with addrs := update (s.icache ip).copy.addrs i v } } := by
  unfold Store.setAddr Store.edit
  rw [set_self]

theorem steady_setAddr {v : Nat} : Steady ip s (s.setAddr ip i v) := by
  unfold Store.setAddr
  exact .edit ip s _

theorem steady_grow : Steady ip s (s.grow ip i b) := by
  have hfirst : Steady ip s ((s.mark b true).setBlock b fun _ => 0) := .of_icache rfl
  exact hfirst.trans steady_setAddr

theorem view_setAddr {v : Nat} :
    (s.setAddr ip i v).view ip = update (s.view ip) (s.icache ip).inum
      { (s.icache ip).copy with addrs := update (s.icache ip).copy.addrs i v } := by
  unfold Store.view
  rw [icache_setAddr, update_idem]
  rfl

theorem view_grow :
    (s.grow ip i b).view ip = update (s.view ip) (s.icache ip).inum
      { (s.icache ip).copy with addrs := update (s.icache ip).copy.addrs i b } :=
  view_setAddr

theorem held_grow_of_ne (h : s.Kept sb ip) (hb : s.bitmap b = false)
    (hn : n ≠ (s.icache ip).inum) (e : Entry) : (s.grow ip i b).held ip (n, e) = s.held ip (n, e) := by
  have hview : (s.grow ip i b).view ip n = s.view ip n := by
    rw [view_grow, update_of_ne hn]
  refine held_congr (by rw [hview]) fun htype => ?_
  rw [hview]
  exact entry_of_eq e fun hne => update_of_ne (Books.indirect_ne h hb htype hne) ..

def Entry.ofAddr (i : Fin (nDirect + 1)) : Entry :=
  if h : i.val < nDirect then .direct ⟨i.val, h⟩ else .indirect

theorem entry_ofAddr : d.entry blocks (.ofAddr i) = d.addrs i := by
  unfold Entry.ofAddr
  split
  · rfl
  · have hi : i = Fin.last nDirect := Fin.ext (by have := i.isLt; simp only [Fin.val_last]; omega)
    rw [hi]
    rfl

theorem Entry.ofAddr_castSucc (i : Fin nDirect) : ofAddr i.castSucc = .direct i := dif_pos i.isLt

theorem Entry.ofAddr_last : ofAddr (Fin.last nDirect) = .indirect := dif_neg (Nat.lt_irrefl _)

theorem Entry.ofAddr_indirect (h : ofAddr i = .indirect) : i = Fin.last nDirect := by
  unfold ofAddr at h
  split at h
  · cases h
  · refine Fin.ext ?_
    simp only [Fin.val_last]
    omega

/-- The entries of an inode in which one address changed, if a new indirect block is empty. -/
theorem entry_addr {v : Nat} {e : Entry} (he : e ≠ .ofAddr i) (hzero : d.addrs i = 0)
    (hv : blocks' v = fun _ => 0) (hsame : d.addrs (Fin.last nDirect) ≠ 0 →
      blocks' (d.addrs (Fin.last nDirect)) = blocks (d.addrs (Fin.last nDirect))) :
    ({ d with addrs := update d.addrs i v } : Dinode).entry blocks' e = d.entry blocks e := by
  cases e with
  | direct j =>
    refine update_of_ne (fun hj => he ?_) ..
    rw [← hj, Entry.ofAddr_castSucc]
  | indirect =>
    refine update_of_ne (fun hj => he ?_) ..
    rw [← hj, Entry.ofAddr_last]
  | pointed j =>
    show pointer blocks' (update d.addrs i v (Fin.last nDirect)) j = pointer blocks _ j
    by_cases hi : i = Fin.last nDirect
    · subst hi
      rw [update_self, hzero]
      unfold pointer
      rw [hv, Block.uint_zero, ite_self, if_pos rfl]
    · rw [update_of_ne (Ne.symm hi)]
      exact pointer_of_eq hsame j

theorem Store.Kept.grow (h : s.Kept sb ip) (htype : (s.icache ip).copy.type ≠ 0) (hsize : b < sb.size)
    (hb : s.bitmap b = false) (hzero : (s.icache ip).copy.addrs i = 0) :
    (s.grow ip i b).Kept sb ip ∧ Grown ip s (s.grow ip i b) ∧ ∀ q, (s.grow ip i b).held ip q =
      if q = ((s.icache ip).inum, .ofAddr i) then some b else s.held ip q := by
  refine h.enter hsize hb (held_own_none.mpr (.inr (entry_ofAddr.trans hzero))) steady_grow
    rfl ?_ rfl ?_ ?_
  · rw [icache_setAddr]
    rfl
  · rintro ⟨n, e⟩
    by_cases hn : n = (s.icache ip).inum
    · subst hn
      have hview : (s.grow ip i b).view ip (s.icache ip).inum =
          { (s.icache ip).copy with addrs := update (s.icache ip).copy.addrs i b } := by
        rw [view_grow, update_self]
      have hself := view_self s ip
      by_cases he : e = .ofAddr i
      · subst he
        rw [if_pos rfl]
        refine held_eq_some.mpr ?_
        rw [hview, entry_ofAddr]
        exact ⟨htype, update_self .., h.pos_of_free hb⟩
      · rw [if_neg fun heq => he (congrArg Prod.snd heq)]
        refine held_congr (by rw [hview, hself]) fun _ => ?_
        rw [hview, hself]
        refine entry_addr he hzero (update_self ..) fun hne => ?_
        rw [← hself] at hne htype ⊢
        exact update_of_ne (Books.indirect_ne h hb htype hne) ..
    · rw [held_grow_of_ne h hb hn, if_neg]
      intro heq
      exact hn (congrArg Prod.fst heq)
  · intro n e c hc _
    exact update_of_ne (Books.ne_of_free h hb hc) ..

/-- The state after the word `j` of the indirect block `bp` got the new block `b`. -/
abbrev Store.growPointed (s : Store) (bp j b : Nat) : Store :=
  ((s.mark b true).setBlock b fun _ => 0).setBlock bp
    ((((s.mark b true).setBlock b fun _ => 0).blocks bp).setUint j b)

theorem Store.Kept.growPointed (h : s.Kept sb ip) (htype : (s.icache ip).copy.type ≠ 0) (hsize : b < sb.size)
    (hwide : sb.size ≤ 2 ^ 32) (hb : s.bitmap b = false) {j : Fin nIndirect}
    (hbp : (s.icache ip).copy.addrs (Fin.last nDirect) ≠ 0)
    (hzero : (s.icache ip).copy.entry s.blocks (.pointed j) = 0) :
    (s.growPointed ((s.icache ip).copy.addrs (Fin.last nDirect)) j b).Kept sb ip ∧
      Grown ip s (s.growPointed ((s.icache ip).copy.addrs (Fin.last nDirect)) j b) ∧
      (∀ q, (s.growPointed ((s.icache ip).copy.addrs (Fin.last nDirect)) j b).held ip q =
        if q = ((s.icache ip).inum, .pointed j) then some b else s.held ip q) ∧
      (s.growPointed ((s.icache ip).copy.addrs (Fin.last nDirect)) j b).blocks b = fun _ => 0 := by
  have hindirect : s.held ip ((s.icache ip).inum, .indirect) =
      some ((s.icache ip).copy.addrs (Fin.last nDirect)) := held_own.mpr ⟨htype, rfl, hbp⟩
  generalize hbp' : (s.icache ip).copy.addrs (Fin.last nDirect) = bp at hbp hindirect ⊢
  have hbpb : bp ≠ b := Books.ne_of_free h hb hindirect
  have hblock : (s.growPointed bp j b).blocks bp = (s.blocks bp).setUint j b := by
    show update _ bp _ bp = _
    rw [update_self]
    show (update s.blocks b _ bp).setUint j b = _
    rw [update_of_ne hbpb]
  have hother : ∀ c, c ≠ bp → c ≠ b → (s.growPointed bp j b).blocks c = s.blocks c := by
    intro c hc hc'
    show update (update s.blocks b _) bp _ c = _
    rw [update_of_ne hc, update_of_ne hc']
  have hview : (s.growPointed bp j b).view ip = s.view ip := rfl
  have hnew : (s.growPointed bp j b).blocks b = fun _ => 0 := by
    show update (update s.blocks b _) bp _ b = _
    rw [update_of_ne hbpb.symm, update_self]
  suffices hentered : (s.growPointed bp j b).Kept sb ip ∧ Grown ip s (s.growPointed bp j b) ∧
      ∀ q, (s.growPointed bp j b).held ip q =
        if q = ((s.icache ip).inum, .pointed j) then some b else s.held ip q from
    ⟨hentered.1, hentered.2.1, hentered.2.2, hnew⟩
  refine h.enter hsize hb (held_own_none.mpr (.inr hzero)) (.of_icache rfl) rfl rfl rfl ?_ ?_
  · rintro ⟨n, e⟩
    by_cases hn : n = (s.icache ip).inum
    · subst hn
      by_cases he : e = .pointed j
      · subst he
        rw [if_pos rfl]
        refine held_own.mpr ⟨htype, ?_, h.pos_of_free hb⟩
        show pointer _ ((s.icache ip).copy.addrs (Fin.last nDirect)) j = b
        rw [hbp']
        unfold pointer
        rw [if_neg hbp, hblock, Block.uint_setUint_self _ _ (by omega)]
      · rw [if_neg fun heq => he (congrArg Prod.snd heq)]
        refine held_congr (by rw [hview]) fun _ => ?_
        rw [hview, view_self]
        cases e with
        | direct i => rfl
        | indirect => rfl
        | pointed i =>
          show pointer _ ((s.icache ip).copy.addrs (Fin.last nDirect)) i = pointer _ _ i
          rw [hbp']
          unfold pointer
          rw [if_neg hbp, if_neg hbp, hblock, Block.uint_setUint_of_ne]
          intro hij
          exact he (congrArg Entry.pointed (Fin.ext hij))
    · rw [if_neg fun heq => hn (congrArg Prod.fst heq)]
      refine held_congr (by rw [hview]) fun hn' => ?_
      rw [hview]
      refine entry_of_eq e fun hne => ?_
      have hheld : s.held ip (n, .indirect) = some ((s.view ip n).addrs (Fin.last nDirect)) :=
        held_eq_some.mpr ⟨hn', rfl, hne⟩
      refine hother _ (fun heq => ?_) (Books.ne_of_free h hb hheld)
      rw [heq] at hheld
      exact hn (congrArg Prod.fst (h.alloc.unique hheld hindirect))
  · intro n e c hc he
    refine hother c (fun heq => ?_) (Books.ne_of_free h hb hc)
    rw [heq] at hc
    exact he (congrArg Prod.snd (h.alloc.unique hc hindirect))

/-- What a search for the entry `e` of `ip` does: it finds the block, or enters a new one. -/
structure Mapped (ip : Slot) (e : Entry) (b : Nat) (s t : Store) : Prop where
  grown : Grown ip s t
  held : t.held ip ((s.icache ip).inum, e) = some b
  found : s.held ip ((s.icache ip).inum, e) ≠ none → t = s
  fresh : e ≠ .indirect → s.held ip ((s.icache ip).inum, e) = none → t.blocks b = fun _ => 0
  only : ∀ p, p ≠ ((s.icache ip).inum, e) → p ≠ ((s.icache ip).inum, .indirect) →
    t.held ip p = s.held ip p

theorem addrOrAlloc_ends (h : s.Kept sb ip) (htype : (s.icache ip).copy.type ≠ 0) :
    Ends (addrOrAlloc sb ip i) s (fun b t => t.Kept sb ip ∧ Mapped ip (.ofAddr i) b s t ∧
      (i ≠ Fin.last nDirect → t.held ip ((s.icache ip).inum, .indirect) =
        s.held ip ((s.icache ip).inum, .indirect)) ∧ Spent sb ip {.ofAddr i} s t)
      (Short sb ip {.ofAddr i} s) := by
  have hentry : (s.icache ip).copy.entry s.blocks (.ofAddr i) = _ := entry_ofAddr
  unfold addrOrAlloc
  rw [ends_get_bind]
  refine ends_ite (fun hzero => ?_) fun hne => ?_
  · have hnone : s.held ip ((s.icache ip).inum, .ofAddr i) = none := held_own_none.mpr (.inr (hentry.trans hzero))
    refine (balloc_ends.mono (fun _ _ => id) ?_).bind ?_
    · rintro _ ⟨rfl, hfree⟩
      exact short_of_free hfree hnone
    rintro b _ ⟨hsize, hb, rfl⟩
    obtain ⟨hkept, hgrown, hheld⟩ := h.grow htype hsize hb hzero
    refine ⟨hkept, ⟨hgrown, ?_, fun hsome => absurd hnone hsome, fun _ _ => ?_, fun p hp _ => ?_⟩,
      fun hi => ?_, spent_enter hsize hb hgrown.inum rfl hnone hheld⟩
    · rw [hheld, if_pos rfl]
    · exact update_self ..
    · rw [hheld, if_neg hp]
    · rw [hheld, if_neg]
      intro heq
      exact hi (Entry.ofAddr_indirect (congrArg Prod.snd heq).symm)
  · refine ⟨h, ⟨.refl ip s, held_own.mpr ⟨htype, hentry, hne⟩, fun _ => rfl, fun _ hnone => ?_, fun _ _ _ => rfl⟩,
      fun _ => rfl, fun _ _ => rfl⟩
    rw [held_own_none, hentry] at hnone
    exact absurd hnone (not_or.mpr ⟨htype, hne⟩)

/-- The entries that `bmap` may fill on its way to an entry of a file. -/
def Entry.way : Entry → Finset Entry
  | .pointed j => {.pointed j, .indirect}
  | e => {e}

/-- `bmap` returns the block of the file, a new one if there was none. -/
theorem bmap_ends (h : s.Kept sb ip) (htype : (s.icache ip).copy.type ≠ 0) (hwide : sb.size ≤ 2 ^ 32)
    (hbn : bn < maxFile) : Ends (bmap sb ip bn) s (fun b t => t.Kept sb ip ∧ Mapped ip (.ofIndex bn hbn) b s t ∧
      (bn < nDirect → t.held ip ((s.icache ip).inum, .indirect) =
        s.held ip ((s.icache ip).inum, .indirect)) ∧ Spent sb ip (Entry.ofIndex bn hbn).way s t)
      (Short sb ip (Entry.ofIndex bn hbn).way s) := by
  unfold bmap
  split
  · rename_i hd
    have hindex : Entry.ofIndex bn hbn = .ofAddr ⟨bn, Nat.lt_succ_of_lt hd⟩ := by
      unfold Entry.ofIndex Entry.ofAddr
      rw [dif_pos hd, dif_pos hd]
    have hway : (Entry.ofIndex bn hbn).way = {.ofAddr ⟨bn, Nat.lt_succ_of_lt hd⟩} := by
      rw [hindex]
      unfold Entry.ofAddr
      rw [dif_pos hd]
      rfl
    rw [hway, hindex]
    refine (addrOrAlloc_ends h htype).imp ?_
    rintro b t ⟨ht, hmapped, hindirect, hspent⟩
    refine ⟨ht, hmapped, fun _ => hindirect fun hlast => ?_, hspent⟩
    exact absurd (congrArg Fin.val hlast) (Nat.ne_of_lt hd)
  · rename_i hd
    have hj : bn - nDirect < nIndirect := Nat.sub_lt_left_of_lt_add (Nat.le_of_not_lt hd) hbn
    have hindex : Entry.ofIndex bn hbn = .pointed ⟨bn - nDirect, hj⟩ := dif_neg hd
    rw [if_pos hj, hindex]
    have hfirst := addrOrAlloc_ends h htype (i := Fin.last nDirect)
    rw [Entry.ofAddr_last] at hfirst
    refine (hfirst.mono (fun _ _ => id) fun e he => he.mono (by simp [Entry.way])).bind ?_
    rintro bp t ⟨ht, hfirst, -, hspent⟩
    replace hspent := hspent.mono (show _ ⊆ (Entry.pointed ⟨bn - nDirect, hj⟩).way by simp [Entry.way])
    have hinum := hfirst.grown.inum
    have htype' : (t.icache ip).copy.type ≠ 0 := by
      rw [hfirst.grown.copy]
      exact htype
    have hbp := hfirst.held
    rw [← hinum] at hbp
    obtain ⟨-, hbp', hpos⟩ := held_own.mp hbp
    have haddr : (t.icache ip).copy.addrs (Fin.last nDirect) = bp := hbp'
    rw [ends_get_bind]
    have hword : (t.icache ip).copy.entry t.blocks (.pointed ⟨bn - nDirect, hj⟩) =
        (t.blocks bp).uint (bn - nDirect) := by
      show pointer _ ((t.icache ip).copy.addrs (Fin.last nDirect)) _ = _
      rw [haddr]
      exact if_neg hpos
    -- the search for the indirect block leaves the other entries alone
    have hsame : ∀ p, p ≠ ((s.icache ip).inum, .indirect) → t.held ip p = s.held ip p :=
      fun p hp => hfirst.only p hp hp
    have hold : s.held ip ((s.icache ip).inum, .pointed ⟨bn - nDirect, hj⟩) ≠ none → t = s := by
      intro hsome
      refine hfirst.found fun hnone => hsome (held_eq_none.mpr ?_)
      exact (held_eq_none.mp hnone).imp id fun hz => if_pos hz
    refine ends_ite (fun hzero => ?_) fun hne => ?_
    · rw [hzero] at hword
      have hnone : t.held ip ((t.icache ip).inum, .pointed ⟨bn - nDirect, hj⟩) = none :=
        held_own_none.mpr (.inr hword)
      refine (balloc_ends.mono (fun _ _ => id) ?_).bind ?_
      · rintro _ ⟨rfl, hfree⟩
        exact hspent.short ((short_of_free hfree hnone).mono (by simp [Entry.way]))
      rintro b _ ⟨hsize, hb, rfl⟩
      obtain ⟨hkept, hgrown', hheld, hblock⟩ :=
        ht.growPointed htype' hsize hwide hb (by rw [haddr]; exact hpos) hword
      rw [haddr] at hkept hgrown' hheld hblock
      have hspent' := hspent.trans ((spent_enter hsize hb hgrown'.inum rfl hnone hheld).mono
        (by simp [Entry.way]))
      rw [hinum] at hheld
      refine ⟨hkept, ⟨hfirst.grown.trans hgrown', ?_, fun hsome => ?_, fun _ _ => hblock,
        fun p hp hp' => ?_⟩, fun hlt => absurd hlt hd, hspent'⟩
      · rw [hheld, if_pos rfl]
      · obtain rfl := hold hsome
        exact absurd hnone hsome
      · rw [hheld, if_neg hp]
        exact hsame p hp'
    · have hheld : t.held ip ((s.icache ip).inum, .pointed ⟨bn - nDirect, hj⟩) =
          some ((t.blocks bp).uint (bn - nDirect)) := by
        rw [← hinum]
        exact held_own.mpr ⟨htype', hword, hne⟩
      refine ⟨ht, ⟨hfirst.grown, hheld, hold, fun _ hnone => ?_, fun p _ hp' => hsame p hp'⟩,
        fun hlt => absurd hlt hd, hspent⟩
      rw [hsame _ (by simp), hnone] at hheld
      cases hheld

end Grow

/-! ## The bytes of a file -/

def Dinode.byte (blocks : Nat → Block) (d : Dinode) (x : Nat) : UInt8 :=
  blocks (d.block blocks (x / bSize)) (x % bSize)

def Dinode.bytes (blocks : Nat → Block) (d : Dinode) (off n : Nat) : List UInt8 :=
  (List.range n).map fun k => d.byte blocks (off + k)

theorem bytes_add {off m : Nat} :
    d.bytes blocks off (m + n) = d.bytes blocks off m ++ d.bytes blocks (off + m) n := by
  unfold Dinode.bytes
  rw [List.range_add, List.map_append, List.map_map]
  simp only [Function.comp_def, Nat.add_assoc]

/-- A file has a block for every byte below `bound`. -/
def Filled (blocks : Nat → Block) (d : Dinode) (bound : Nat) : Prop :=
  bound ≤ maxFile * bSize ∧ ∀ bn, bn * bSize < bound → d.block blocks bn ≠ 0

theorem index_lt {x : Nat} (h : x < maxFile * bSize) : x / bSize < maxFile :=
  Nat.div_lt_of_lt_mul (by rw [Nat.mul_comm]; exact h)

theorem same_block (off x : Nat) (h : off % bSize + x < bSize) :
    (off + x) / bSize = off / bSize ∧ (off + x) % bSize = off % bSize + x := by
  have hbsize : 0 < bSize := by decide
  have hdiv := Nat.div_add_mod off bSize
  have hsplit : off + x = off % bSize + x + off / bSize * bSize := by
    rw [Nat.mul_comm]
    omega
  rw [hsplit, Nat.add_mul_div_right _ _ hbsize, Nat.add_mul_mod_self_right,
    Nat.div_eq_of_lt h, Nat.mod_eq_of_lt h, Nat.zero_add]
  exact ⟨rfl, rfl⟩

theorem block_eq (blocks : Nat → Block) (d : Dinode) (h : bn < maxFile) :
    d.block blocks bn = d.entry blocks (.ofIndex bn h) := dif_pos h

section Bytes

variable {sb : Superblock} {s : Store} {ip : Slot}

theorem addrOrAlloc_found (h : (s.icache ip).copy.addrs i ≠ 0) :
    Ends (addrOrAlloc sb ip i) s (fun b t => t = s ∧ b = (s.icache ip).copy.addrs i)
      fun _ => False := by
  unfold addrOrAlloc
  rw [ends_get_bind]
  exact ends_ite (fun hzero => absurd hzero h) fun _ => ⟨rfl, rfl⟩

/-- Where a block is entered, `bmap` returns it and allocates nothing. -/
theorem bmap_found (h : (s.icache ip).copy.block s.blocks bn ≠ 0) :
    Ends (bmap sb ip bn) s (fun b t => t = s ∧ b = (s.icache ip).copy.block s.blocks bn)
      fun _ => False := by
  have hbn : bn < maxFile := by
    by_contra hout
    exact h (dif_neg hout)
  rw [block_eq _ _ hbn] at h ⊢
  unfold bmap
  by_cases hd : bn < nDirect
  · have hindex : Entry.ofIndex bn hbn = .direct ⟨bn, hd⟩ := dif_pos hd
    rw [hindex] at h ⊢
    rw [dif_pos hd]
    exact addrOrAlloc_found h
  have hj : bn - nDirect < nIndirect := Nat.sub_lt_left_of_lt_add (Nat.le_of_not_lt hd) hbn
  have hindex : Entry.ofIndex bn hbn = .pointed ⟨bn - nDirect, hj⟩ := dif_neg hd
  have hbp : (s.icache ip).copy.addrs (Fin.last nDirect) ≠ 0 := by
    intro hz
    refine h ?_
    rw [hindex]
    exact if_pos hz
  have hword : (s.icache ip).copy.entry s.blocks (.ofIndex bn hbn) =
      (s.blocks ((s.icache ip).copy.addrs (Fin.last nDirect))).uint (bn - nDirect) := by
    rw [hindex]
    exact if_neg hbp
  rw [hword] at h ⊢
  rw [dif_neg hd, if_pos hj]
  refine (addrOrAlloc_found hbp).bind ?_
  rintro b t ⟨rfl, rfl⟩
  rw [ends_get_bind]
  exact ends_ite (fun hzero => absurd hzero h) fun _ => ⟨rfl, rfl⟩

/-- `readi` reads the bytes of the file, and allocates nothing. -/
theorem readLoop_ends {bound : Nat} (hfilled : Filled s.blocks (s.icache ip).copy bound) {fuel off : Nat}
    (hfuel : n ≤ fuel) (hbound : off + n ≤ bound) : Ends (readLoop sb ip fuel off n) s
      (fun r t => t = s ∧ r = (s.icache ip).copy.bytes s.blocks off n) fun _ => False := by
  induction fuel generalizing off n with
  | zero =>
    obtain rfl := Nat.le_zero.mp hfuel
    exact ⟨rfl, rfl⟩
  | succ fuel ih =>
    refine ends_ite (fun hz => ?_) fun hz => ?_
    · subst hz
      exact ⟨rfl, rfl⟩
    have hbsize : 0 < bSize := by decide
    have hmod := Nat.mod_lt off hbsize
    have hdiv := Nat.div_add_mod off bSize
    have hlt : off / bSize * bSize < bound := by
      rw [Nat.mul_comm]
      omega
    have hrest : Ends (readLoop sb ip fuel (off + min n (bSize - off % bSize))
        (n - min n (bSize - off % bSize))) s (fun r t => t = s ∧
          r = (s.icache ip).copy.bytes s.blocks (off + min n (bSize - off % bSize))
            (n - min n (bSize - off % bSize))) fun _ => False :=
      ih (by omega) (by omega)
    refine (bmap_found (hfilled.2 _ hlt)).bind ?_
    rintro b t ⟨rfl, rfl⟩
    rw [ends_get_bind]
    have hlen : n = min n (bSize - off % bSize) + (n - min n (bSize - off % bSize)) := by omega
    refine hrest.bind ?_
    rintro rest t ⟨rfl, rfl⟩
    refine ⟨rfl, ?_⟩
    rw [hlen, bytes_add, ← hlen]
    refine congrArg (· ++ _) (List.map_congr_left fun x hx => ?_)
    rw [List.mem_range] at hx
    -- the bytes of one round lie in one block
    obtain ⟨hdiv', hmod'⟩ := same_block off x (by omega)
    unfold Dinode.byte
    rw [hdiv', hmod']

theorem readi_ends (hdev : (s.icache ip).copy.type ≠ tDev)
    (hfilled : Filled s.blocks (s.icache ip).copy (s.icache ip).copy.size)
    {off : Nat} {input : List UInt8} : Ends (readi sb ip off n input) s (fun r t => t = s ∧
      r = if off > (s.icache ip).copy.size ∨ (off + n) % uintMod < off then none
        else some ((s.icache ip).copy.bytes s.blocks off (min n ((s.icache ip).copy.size - off))))
      fun _ => False := by
  unfold readi
  rw [ends_get_bind]
  rw [if_neg hdev]
  refine ends_ite (fun hout => ⟨rfl, (if_pos hout).symm⟩) fun hin => ?_
  rw [if_neg hin]
  have hlen : (if off + n > (s.icache ip).copy.size then (s.icache ip).copy.size - off else n) =
      min n ((s.icache ip).copy.size - off) := by
    split <;> omega
  rw [hlen]
  refine (readLoop_ends hfilled (Nat.le_refl _) (by omega)).bind ?_
  rintro r t ⟨rfl, rfl⟩
  exact ⟨rfl, rfl⟩

end Bytes

end Xv6.Files
