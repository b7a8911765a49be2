import Mathlib.Data.List.GetD
import Mathlib.Order.Interval.Finset.Nat
import Xv6.Files.Blocks

/-! # What the loop of `writei` writes

The bytes of a file are read through its entries. A write puts the given bytes where they belong
and leaves all others as they are; a block that it enters holds zeros elsewhere.
-/

namespace Xv6.Files

open Lib
open Fs (Slot)

variable {x n b off : Nat} {D : Nat → Dinode} {blocks : Nat → Block}

/-- The byte `x` of the file `n`, if there is a block for it. -/
def content (D : Nat → Dinode) (blocks : Nat → Block) (n x : Nat) : Option UInt8 :=
  if h : x / bSize < maxFile then
    (held D blocks (n, .ofIndex (x / bSize) h)).map fun b => blocks b (x % bSize)
  else none

abbrev Store.content (s : Store) (ip : Slot) : Nat → Nat → Option UInt8 :=
  Files.content (s.view ip) s.blocks

theorem Store.content_of_lt {s : Store} {ip : Slot} (h : x / bSize < maxFile) :
    s.content ip n x = (s.held ip (n, .ofIndex (x / bSize) h)).map fun b => s.blocks b (x % bSize) :=
  dif_pos h

theorem Store.content_of_not_lt {s : Store} {ip : Slot} (h : ¬ x / bSize < maxFile) :
    s.content ip n x = none := dif_neg h

theorem content_eq_some {v : UInt8} : content D blocks n x = some v ↔
      (D n).type ≠ 0 ∧ (D n).block blocks (x / bSize) ≠ 0 ∧ (D n).byte blocks x = v := by
  unfold content Dinode.byte
  split
  · rename_i hlt
    rw [Option.map_eq_some_iff, block_eq _ _ hlt]
    constructor
    · rintro ⟨b, hb, rfl⟩
      obtain ⟨htype, rfl, hne⟩ := held_eq_some.mp hb
      exact ⟨htype, hne, rfl⟩
    · rintro ⟨htype, hne, rfl⟩
      exact ⟨_, held_eq_some.mpr ⟨htype, rfl, hne⟩, rfl⟩
  · rename_i hlt
    refine iff_of_false (by simp) fun hall => hall.2.1 ?_
    exact dif_neg hlt

theorem content_ne_none :
    content D blocks n x ≠ none ↔ (D n).type ≠ 0 ∧ (D n).block blocks (x / bSize) ≠ 0 := by
  rw [Option.ne_none_iff_exists']
  simp only [content_eq_some]
  constructor
  · rintro ⟨v, htype, hne, -⟩
    exact ⟨htype, hne⟩
  · rintro ⟨htype, hne⟩
    exact ⟨_, htype, hne, rfl⟩

theorem bytes_of_content {l : List UInt8} (h : ∀ x, x < l.length → content D blocks n x = some (l.getD x 0)) :
    (D n).bytes blocks 0 l.length = l := by
  unfold Dinode.bytes
  apply List.ext_getElem
  · rw [List.length_map, List.length_range]
  · intro x hx hx'
    rw [List.getElem_map, List.getElem_range, Nat.zero_add, (content_eq_some.mp (h x hx')).2.2]
    exact List.getD_eq_getElem l 0 hx'

theorem content_congr {D' : Nat → Dinode} {blocks' : Nat → Block}
    (hheld : ∀ e, held D' blocks' (n, e) = held D blocks (n, e))
    (hdata : ∀ e b, e ≠ .indirect → held D blocks (n, e) = some b → blocks' b = blocks b) :
    content D' blocks' n x = content D blocks n x := by
  unfold content
  split
  · rename_i hlt
    rw [hheld]
    cases hb : held D blocks (n, .ofIndex (x / bSize) hlt) with
    | none => rfl
    | some b => rw [Option.map_some, Option.map_some, hdata _ b Entry.ofIndex_ne_indirect hb]
  · rfl

section Write

variable {sb : Superblock} {s t u : Store} {ip : Slot}

theorem held_setBlock (h : s.Kept sb ip) {p : Nat × Entry} (hb : s.held ip p = some b) (he : p.2 ≠ .indirect)
    (data : Block) (q : Nat × Entry) : (s.setBlock b data).held ip q = s.held ip q := by
  refine held_congr rfl fun htype => entry_of_eq q.2 fun hne => Function.update_of_ne (fun heq => ?_) ..
  have hq : s.held ip (q.1, .indirect) = some b := by
    rw [← heq]
    exact held_eq_some.mpr ⟨htype, rfl, hne⟩
  exact he (congrArg Prod.snd (h.alloc.unique hb hq))

theorem content_setBlock (h : s.Kept sb ip) {bn : Nat} {hbn : bn < maxFile}
    (hb : s.held ip (n, .ofIndex bn hbn) = some b) (data : Block) (m x : Nat) :
    (s.setBlock b data).content ip m x =
      if m = n ∧ x / bSize = bn then some (data (x % bSize)) else s.content ip m x := by
  have hheld := held_setBlock h hb (Entry.ofIndex_ne_indirect (h := hbn)) data
  split
  · rename_i hall
    obtain ⟨rfl, rfl⟩ := hall
    rw [Store.content_of_lt hbn, hheld, hb]
    exact congrArg some (congrFun (Function.update_self ..) _)
  rename_i hne
  by_cases hlt : x / bSize < maxFile
  · rw [Store.content_of_lt hlt, Store.content_of_lt hlt, hheld]
    cases hc : s.held ip (m, .ofIndex (x / bSize) hlt) with
    | none => rfl
    | some c =>
      have hcb : c ≠ b := by
        rintro rfl
        obtain ⟨hm, he⟩ := Prod.mk.inj (h.alloc.unique hc hb)
        exact hne ⟨hm, Entry.ofIndex_inj he⟩
      exact congrArg some (congrFun (Function.update_of_ne hcb ..) _)
  · rw [Store.content_of_not_lt hlt, Store.content_of_not_lt hlt]

/-- A byte is as it was, or it is a zero in a block that was not there. -/
def SameOrZero (a b : Option UInt8) : Prop := b = a ∨ a = none ∧ b = some 0

theorem SameOrZero.trans {a b c : Option UInt8} (h : SameOrZero a b) (h' : SameOrZero b c) :
    SameOrZero a c := by
  obtain rfl | ⟨ha, hb⟩ := h
  · exact h'
  · obtain rfl | ⟨hb', -⟩ := h'
    · exact .inr ⟨ha, hb⟩
    · rw [hb'] at hb
      cases hb

theorem SameOrZero.some {a b : Option UInt8} {v : UInt8} (h : SameOrZero a b) (ha : a = some v) :
    b = some v := by
  obtain rfl | ⟨ha', -⟩ := h
  · exact ha
  · rw [ha'] at ha
    cases ha

theorem Mapped.content {bn : Nat} {hbn : bn < maxFile} (h : Mapped ip (.ofIndex bn hbn) b s t) (n x : Nat) :
    SameOrZero (s.content ip n x) (t.content ip n x) := by
  by_cases hlt : x / bSize < maxFile
  · rw [Store.content_of_lt hlt, Store.content_of_lt hlt]
    by_cases hp : (n, Entry.ofIndex (x / bSize) hlt) = ((s.icache ip).inum, .ofIndex bn hbn)
    · rw [hp]
      by_cases hnone : s.held ip ((s.icache ip).inum, .ofIndex bn hbn) = none
      · rw [hnone, h.held, Option.map_none, Option.map_some, h.fresh Entry.ofIndex_ne_indirect hnone]
        exact .inr ⟨rfl, rfl⟩
      · rw [h.found hnone]
        exact .inl rfl
    · rw [h.only _ hp fun heq => Entry.ofIndex_ne_indirect (Prod.mk.inj heq).2]
      cases hc : s.held ip (n, .ofIndex (x / bSize) hlt) with
      | none => exact .inl rfl
      | some c =>
        rw [Option.map_some, Option.map_some, h.grown.data _ _ c hc Entry.ofIndex_ne_indirect]
        exact .inl rfl
  · rw [Store.content_of_not_lt hlt, Store.content_of_not_lt hlt]
    exact .inl rfl

/-- The bytes `src` are written to the file of `ip` at `off`. -/
structure Wrote (ip : Slot) (off : Nat) (src : List UInt8) (s t : Store) : Prop
    extends Extended ip s t where
  hit : ∀ x, off ≤ x → x < off + src.length →
    t.content ip (s.icache ip).inum x = some (src.getD (x - off) 0)
  rest : ∀ n x, (n = (s.icache ip).inum → x < off ∨ off + src.length ≤ x) →
    SameOrZero (s.content ip n x) (t.content ip n x)
  icache : (∀ x, off ≤ x → x < off + src.length → s.content ip (s.icache ip).inum x ≠ none) →
    t.icache = s.icache

theorem Wrote.nil (ip : Slot) (off : Nat) (s : Store) : Wrote ip off [] s s :=
  ⟨.refl ip s, fun x hle hlt => absurd hlt (by simpa using hle), fun _ _ _ => .inl rfl, fun _ => rfl⟩

theorem Wrote.append {a b : List UInt8} (h : Wrote ip off a s t) (h' : Wrote ip (off + a.length) b t u) :
    Wrote ip off (a ++ b) s u := by
  have hinum := h.inum
  refine ⟨h.toExtended.trans h'.toExtended, fun x hle hlt => ?_, fun n x hout => ?_, fun hall => ?_⟩
  · rw [List.length_append] at hlt
    by_cases hx : x < off + a.length
    · have hkept := h'.rest (s.icache ip).inum x fun _ => .inl hx
      rw [hkept.some (h.hit x hle hx), List.getD_append _ _ _ _ (by omega)]
    · have hhit := h'.hit x (by omega) (by omega)
      rw [hinum] at hhit
      rw [hhit, List.getD_append_right _ _ _ _ (by omega), Nat.sub_sub]
  · rw [List.length_append] at hout
    refine (h.rest n x fun hn => ?_).trans (h'.rest n x fun hn => ?_)
    · omega
    · rw [hinum] at hn
      omega
  · rw [List.length_append] at hall
    have hfirst := h.icache fun x hle hlt => hall x hle (by omega)
    rw [← hfirst]
    refine h'.icache fun x hle hlt => ?_
    rw [hinum]
    obtain ⟨v, hv⟩ := Option.ne_none_iff_exists'.mp (hall x (by omega) (by omega))
    rw [(h.rest _ x fun _ => .inr hle).some hv]
    exact nofun

/-- One round: the block is found or entered, and the bytes are copied to it. -/
theorem Mapped.wrote {hbn : off / bSize < maxFile} (ht : t.Kept sb ip)
    (h : Mapped ip (.ofIndex (off / bSize) hbn) b s t) (src : List UInt8) (hpos : 0 < src.length)
    (hlen : off % bSize + src.length ≤ bSize) :
    Wrote ip off src s (t.setBlock b ((t.blocks b).write (off % bSize) src)) := by
  have hheld := held_setBlock ht h.held (Entry.ofIndex_ne_indirect (h := hbn))
    ((t.blocks b).write (off % bSize) src)
  have hcontent := content_setBlock ht h.held ((t.blocks b).write (off % bSize) src)
  have hsteady : Steady ip t (t.setBlock b ((t.blocks b).write (off % bSize) src)) := .of_icache rfl
  refine ⟨⟨h.grown.steady.trans hsteady, h.grown.dinodes, h.grown.copy, fun p c hp => ?_, fun n e hn => ?_⟩,
    fun x hle hlt => ?_, fun n x hout => ?_, fun hall => ?_⟩
  · rw [hheld]
    exact h.grown.held p c hp
  · rw [hheld]
    exact h.grown.others n e hn
  · obtain ⟨y, rfl⟩ := Nat.exists_eq_add_of_le hle
    obtain ⟨hdiv, hmod⟩ := same_block off y (by omega)
    rw [hcontent, if_pos ⟨rfl, hdiv⟩, hmod]
    unfold Block.write
    rw [if_pos ⟨Nat.le_add_right .., by omega⟩, Nat.add_sub_cancel_left, Nat.add_sub_cancel_left]
  · refine (h.content n x).trans (.inl ?_)
    rw [hcontent]
    split
    · rename_i hat
      obtain ⟨rfl, hdiv⟩ := hat
      -- the byte lies in the block that is written, but not among the bytes that are
      have hmiss : ¬ (off % bSize ≤ x % bSize ∧ x % bSize < off % bSize + src.length) := by
        have hx := Nat.div_add_mod x bSize
        have hoff := Nat.div_add_mod off bSize
        rw [hdiv] at hx
        omega
      have hlt : x / bSize < maxFile := by
        rw [hdiv]
        exact hbn
      have hsame : Entry.ofIndex (x / bSize) hlt = .ofIndex (off / bSize) hbn := by
        simp only [hdiv]
      rw [Store.content_of_lt hlt, hsame, h.held]
      exact congrArg some (if_neg hmiss)
    · rfl
  · have hne := hall off (Nat.le_refl _) (by omega)
    rw [Store.content_of_lt hbn, Option.map_eq_none_iff.ne] at hne
    have hicache : t.icache = s.icache := congrArg Store.icache (h.found hne)
    exact hicache

/-- The entries that lead to the `n` bytes of a file from `off` on. -/
def touched (off n : Nat) : Finset Entry :=
  (Finset.Ico off (off + n)).biUnion fun x =>
    if h : x / bSize < maxFile then (Entry.ofIndex _ h).way else ∅

theorem way_subset_touched {m : Nat} (hlt : 0 < m) (h : off / bSize < maxFile) :
    (Entry.ofIndex (off / bSize) h).way ⊆ touched off m := by
  have hmem : off ∈ Finset.Ico off (off + m) := Finset.mem_Ico.mpr ⟨Nat.le_refl off, by omega⟩
  have hsub := Finset.subset_biUnion_of_mem
    (fun x => if h : x / bSize < maxFile then (Entry.ofIndex _ h).way else ∅) hmem
  rw [dif_pos h] at hsub
  exact hsub

theorem touched_mono {off' m m' : Nat} (hle : off ≤ off') (h : off' + m' ≤ off + m) :
    touched off' m' ⊆ touched off m :=
  Finset.biUnion_subset_biUnion_of_subset_left _ (Finset.Ico_subset_Ico hle h)

theorem spent_setBlock (h : t.Kept sb ip) {p : Nat × Entry} (hb : t.held ip p = some b) (he : p.2 ≠ .indirect)
    (data : Block) (way : Finset Entry) : Spent sb ip way t (t.setBlock b data) := by
  intro W _
  have hheld := held_setBlock h hb he data
  unfold Store.lacks
  simp only [hheld]
  rfl

theorem writeLoop_ends (h : s.Kept sb ip) (htype : (s.icache ip).copy.type ≠ 0) (hwide : sb.size ≤ 2 ^ 32)
    {fuel : Nat} {src : List UInt8} (hfuel : src.length ≤ fuel) (hbound : off + src.length ≤ maxFile * bSize) :
    Ends (writeLoop sb ip fuel src off) s (fun _ t => t.Kept sb ip ∧ Wrote ip off src s t)
      (Short sb ip (touched off src.length) s) := by
  induction fuel generalizing s off src with
  | zero =>
    obtain rfl := List.length_eq_zero_iff.mp (Nat.le_zero.mp hfuel)
    exact ⟨h, .nil ip off s⟩
  | succ fuel ih =>
    refine ends_ite (fun hz => ?_) fun hz => ?_
    · subst hz
      exact ⟨h, .nil ip off s⟩
    have hpos : 0 < src.length := List.length_pos_iff.mpr hz
    have hmod := Nat.mod_lt off (show 0 < bSize by decide)
    have hbn : off / bSize < maxFile := index_lt (by omega)
    have hway := way_subset_touched hpos hbn
    refine ((bmap_ends h htype hwide hbn).mono (fun _ _ => id) fun _ he => he.mono hway).bind ?_
    rintro b t ⟨ht, hmapped, -, hspent⟩
    rw [ends_modify_bind]
    have htake : (src.take (min src.length (bSize - off % bSize))).length =
        min src.length (bSize - off % bSize) := by
      rw [List.length_take]
      omega
    have hround := hmapped.wrote ht (src.take (min src.length (bSize - off % bSize)))
      (by rw [htake]; omega) (by rw [htake]; omega)
    have hkept : (t.setBlock b ((t.blocks b).write (off % bSize)
        (src.take (min src.length (bSize - off % bSize))))).Kept sb ip :=
      ht.congr (held_setBlock ht hmapped.held (Entry.ofIndex_ne_indirect (h := hbn)) _)
    have hspent' := (hspent.mono hway).trans (spent_setBlock ht hmapped.held
      (Entry.ofIndex_ne_indirect (h := hbn)) ((t.blocks b).write (off % bSize)
        (src.take (min src.length (bSize - off % bSize)))) _)
    refine (ih hkept ?_ (by rw [List.length_drop]; omega) (by rw [List.length_drop]; omega)).mono ?_
      fun e he => hspent'.short (he.mono (touched_mono (Nat.le_add_right ..) ?_))
    · rw [hround.copy]
      exact htype
    · rintro _ u ⟨hu, hrest⟩
      have hall := hround.append (b := src.drop (min src.length (bSize - off % bSize))) (by
        rw [htake]
        exact hrest)
      rw [List.take_append_drop] at hall
      exact ⟨hu, hall⟩
    · rw [List.length_drop]
      omega

end Write

end Xv6.Files
