import Xv6.Files.Blocks

/-! # Giving blocks back

`itrunc` gives back the blocks that an inode names, one by one, and clears its entries. The words
of the indirect block are not cleared, so between the first of them and the end of the loop the
inode still names blocks that are free; what is held then is said entry by entry.
-/

namespace Xv6.Files

open Function Lib
open Fs (Slot)

variable {sb : Superblock} {s : Store} {ip : Slot} {i : Fin (nDirect + 1)} {v : Nat} {e : Entry}
  {q : Nat × Entry}

theorem Agrees.release {f : Nat × Entry → Option Nat} {bitmap : Nat → Bool} {p : Nat × Entry} {b : Nat}
    (h : Agrees sb f bitmap) (hp : f p = some b) :
    Agrees sb (update f p none) (update bitmap b false) := by
  have hmarked := h.alloc.marked_of_held hp
  refine ⟨(h.alloc.release hp).congr (fun _ => rfl) fun c => ?_, fun c hc => ?_⟩
  · unfold Marked
    by_cases hcb : c = b
    · rw [hcb, update_self]
      exact iff_of_false (fun hall => Bool.noConfusion hall.2.2) fun hne => hne.1 rfl
    · rw [update_of_ne hcb, and_iff_right hcb]
  · have hcb : c ≠ b := by
      rintro rfl
      exact absurd hmarked.1 (by omega)
    rw [update_of_ne hcb]
    exact h.reserved c hc

theorem bfree_ends {b : Nat} (h : s.bitmap b = true) :
    Ends (bfree b) s (fun _ t => t = s.mark b false) fun _ => False := by
  unfold bfree
  rw [ends_get_bind]
  exact ends_ite (fun _ => rfl) fun hfree => absurd h hfree

/-- What `itrunc` does before it writes the inode back. -/
structure Shrunk (ip : Slot) (s t : Store) : Prop where
  steady : Steady ip s t
  dinodes : t.dinodes = s.dinodes
  blocks : t.blocks = s.blocks
  copy : (t.icache ip).copy = { (s.icache ip).copy with addrs := (t.icache ip).copy.addrs }

theorem Shrunk.refl (ip : Slot) (s : Store) : Shrunk ip s s := ⟨.refl ip s, rfl, rfl, rfl⟩

theorem Shrunk.trans {t u : Store} (h : Shrunk ip s t) (h' : Shrunk ip t u) : Shrunk ip s u := by
  refine ⟨h.steady.trans h'.steady, h'.dinodes.trans h.dinodes, h'.blocks.trans h.blocks, ?_⟩
  rw [h'.copy, h.copy]

theorem Shrunk.of_mark {b : Nat} {inUse : Bool} : Shrunk ip s (s.mark b inUse) :=
  ⟨.of_icache rfl, rfl, rfl, rfl⟩

theorem Shrunk.of_setAddr : Shrunk ip s (s.setAddr ip i 0) := by
  refine ⟨steady_setAddr, rfl, rfl, ?_⟩
  rw [icache_setAddr]

theorem addrs_setAddr : ((s.setAddr ip i v).icache ip).copy.addrs = update (s.icache ip).copy.addrs i v := by
  rw [icache_setAddr]

theorem held_setAddr_of_ne {n : Nat} (hn : n ≠ (s.icache ip).inum) :
    (s.setAddr ip i v).held ip (n, e) = s.held ip (n, e) := by
  have hview : (s.setAddr ip i v).view ip n = s.view ip n := by
    rw [view_setAddr, update_of_ne hn]
  refine held_congr (by rw [hview]) fun _ => ?_
  rw [hview]
  rfl

theorem held_setAddr_self (h : ({ (s.icache ip).copy with addrs := update (s.icache ip).copy.addrs i v } :
      Dinode).entry s.blocks e = (s.icache ip).copy.entry s.blocks e) :
    (s.setAddr ip i v).held ip ((s.icache ip).inum, e) = s.held ip ((s.icache ip).inum, e) := by
  have hview : (s.setAddr ip i v).view ip (s.icache ip).inum =
      { (s.icache ip).copy with addrs := update (s.icache ip).copy.addrs i v } := by
    rw [view_setAddr, update_self]
  have hself := view_self s ip
  refine held_congr (by rw [hview, hself]) fun _ => ?_
  rw [hview, hself]
  exact h

theorem held_setAddr_none (h : ({ (s.icache ip).copy with addrs := update (s.icache ip).copy.addrs i 0 } :
      Dinode).entry s.blocks e = 0) :
    (s.setAddr ip i 0).held ip ((s.icache ip).inum, e) = none := by
  refine held_eq_none.mpr (.inr ?_)
  rw [view_setAddr, update_self]
  exact h

theorem held_setAddr_direct {i : Fin nDirect} (q : Nat × Entry) :
    (s.setAddr ip i.castSucc 0).held ip q =
      update (s.held ip) ((s.icache ip).inum, .direct i) none q := by
  obtain ⟨n, e⟩ := q
  by_cases hn : n = (s.icache ip).inum
  · subst hn
    by_cases he : e = .direct i
    · subst he
      rw [update_self]
      exact held_setAddr_none (update_self ..)
    rw [update_of_ne fun heq => he (Prod.mk.inj heq).2]
    refine held_setAddr_self ?_
    have hlast : update (s.icache ip).copy.addrs i.castSucc 0 (Fin.last nDirect) =
        (s.icache ip).copy.addrs (Fin.last nDirect) :=
      update_of_ne (Fin.ne_of_lt (Fin.castSucc_lt_last i)).symm ..
    cases e with
    | direct j =>
      refine update_of_ne (fun hj => he ?_) ..
      rw [Fin.castSucc_inj.mp hj]
    | indirect => exact hlast
    | pointed j => exact congrArg (fun bp => pointer s.blocks bp j) hlast
  · rw [update_of_ne fun heq => hn (Prod.mk.inj heq).1]
    exact held_setAddr_of_ne hn

theorem truncDirect_ends (h : s.Kept sb ip) (htype : (s.icache ip).copy.type ≠ 0)
    {i : Fin nDirect} : Ends (truncDirect ip i) s (fun _ t => t.Kept sb ip ∧ Shrunk ip s t ∧
      (t.icache ip).copy.addrs = update (s.icache ip).copy.addrs i.castSucc 0)
      fun _ => False := by
  unfold truncDirect
  rw [ends_get_bind]
  refine ends_ite (fun hzero => ?_) fun hne => ?_
  · refine ⟨h, .refl ip s, ?_⟩
    rw [← hzero, update_eq_self]
  have hheld : s.held ip ((s.icache ip).inum, .direct i) = some _ := held_own.mpr ⟨htype, rfl, hne⟩
  refine (bfree_ends (h.marked hheld)).bind ?_
  rintro _ _ rfl
  refine ⟨(h.release hheld).congr held_setAddr_direct, ?_, ?_⟩
  · exact Shrunk.of_mark.trans .of_setAddr
  · rw [addrs_setAddr]
    rfl

theorem truncLoop_ends (h : s.Kept sb ip) (htype : (s.icache ip).copy.type ≠ 0) :
    Ends ((List.finRange nDirect).forM (truncDirect ip)) s (fun _ t => t.Kept sb ip ∧ Shrunk ip s t ∧
      ∀ i : Fin nDirect, (t.icache ip).copy.addrs i.castSucc = 0) fun _ => False := by
  refine (Ends.forM (fun l t => t.Kept sb ip ∧ Shrunk ip s t ∧
    ∀ i : Fin nDirect, i ∉ l → (t.icache ip).copy.addrs i.castSucc = 0) ?_ ?_).imp ?_
  · rintro i l t ⟨ht, hshrunk, hdone⟩
    have htype' : (t.icache ip).copy.type ≠ 0 := by
      rw [hshrunk.copy]
      exact htype
    refine (truncDirect_ends ht htype').imp ?_
    rintro _ u ⟨hu, hstep, haddrs⟩
    refine ⟨hu, hshrunk.trans hstep, fun j hj => ?_⟩
    rw [haddrs]
    by_cases hji : j = i
    · rw [hji, update_self]
    · rw [update_of_ne fun heq => hji (Fin.castSucc_inj.mp heq)]
      exact hdone j fun hmem => (List.mem_cons.mp hmem).elim hji hj
  · exact ⟨h, .refl ip s, fun i hi => absurd (List.mem_finRange i) hi⟩
  · rintro _ t ⟨ht, hshrunk, hdone⟩
    exact ⟨ht, hshrunk, fun i => hdone i List.not_mem_nil⟩

/-- What is held when the words of the indirect block in `l` are still to be given back. -/
def withoutPointed (f : Nat × Entry → Option Nat) (n : Nat) (l : List Nat) (q : Nat × Entry) : Option Nat :=
  match q.2 with
  | .pointed j => if q.1 = n ∧ j.val ∉ l then none else f q
  | _ => f q

theorem withoutPointed_release (f : Nat × Entry → Option Nat) (n : Nat) {l : List Nat} {j : Fin nIndirect}
    (hj : j.val ∉ l) (q : Nat × Entry) : withoutPointed f n l q =
      update (withoutPointed f n (j.val :: l)) (n, .pointed j) none q := by
  obtain ⟨m, e⟩ := q
  by_cases heq : (m, e) = (n, .pointed j)
  · rw [heq, update_self]
    exact if_pos ⟨rfl, hj⟩
  rw [update_of_ne heq]
  cases e with
  | direct i => rfl
  | indirect => rfl
  | pointed i =>
    have hiff : (m = n ∧ i.val ∉ l) ↔ (m = n ∧ i.val ∉ j.val :: l) := by
      refine and_congr_right fun hm => not_congr ?_
      rw [List.mem_cons, or_iff_right]
      rintro hij
      exact heq (by rw [hm, Fin.ext hij])
    exact if_congr hiff rfl rfl

theorem held_setAddr_last : (s.setAddr ip (Fin.last nDirect) 0).held ip q =
      update (withoutPointed (s.held ip) (s.icache ip).inum [])
        ((s.icache ip).inum, .indirect) none q := by
  have hlast : update (s.icache ip).copy.addrs (Fin.last nDirect) 0 (Fin.last nDirect) = 0 :=
    update_self ..
  obtain ⟨n, e⟩ := q
  by_cases hn : n = (s.icache ip).inum
  · subst hn
    cases e with
    | direct i =>
      rw [update_of_ne fun heq => Entry.noConfusion (Prod.mk.inj heq).2]
      refine held_setAddr_self ?_
      exact update_of_ne (Fin.ne_of_lt (Fin.castSucc_lt_last i)) ..
    | indirect =>
      rw [update_self]
      exact held_setAddr_none hlast
    | pointed j =>
      rw [update_of_ne fun heq => Entry.noConfusion (Prod.mk.inj heq).2]
      refine Eq.trans ?_ (if_pos ⟨rfl, List.not_mem_nil⟩).symm
      refine held_setAddr_none ?_
      exact congrArg (fun bp => pointer s.blocks bp j) hlast
  · rw [update_of_ne fun heq => hn (Prod.mk.inj heq).1]
    refine (held_setAddr_of_ne hn).trans ?_
    cases e with
    | direct i => rfl
    | indirect => rfl
    | pointed j => exact (if_neg fun hall => hn hall.1).symm

theorem pointedLoop_ends (h : s.Kept sb ip) (htype : (s.icache ip).copy.type ≠ 0)
    (hbp : (s.icache ip).copy.addrs (Fin.last nDirect) ≠ 0) :
    Ends ((List.range nIndirect).forM fun j =>
        if (s.blocks ((s.icache ip).copy.addrs (Fin.last nDirect))).uint j = 0 then pure ()
        else bfree ((s.blocks ((s.icache ip).copy.addrs (Fin.last nDirect))).uint j)) s
      (fun _ t => t = { s with bitmap := t.bitmap } ∧
        Agrees sb (withoutPointed (s.held ip) (s.icache ip).inum []) t.bitmap) fun _ => False := by
  have hword : ∀ j : Fin nIndirect, (s.icache ip).copy.entry s.blocks (.pointed j) =
      (s.blocks ((s.icache ip).copy.addrs (Fin.last nDirect))).uint j := fun j => if_neg hbp
  refine (Ends.forM (fun l t => t = { s with bitmap := t.bitmap } ∧ l.Nodup ∧ (∀ j ∈ l, j < nIndirect) ∧
    Agrees sb (withoutPointed (s.held ip) (s.icache ip).inum l) t.bitmap) ?_ ?_).imp ?_
  · rintro j l t ⟨ht, hnodup, hlt, hagrees⟩
    obtain ⟨hj, hnodup⟩ := List.nodup_cons.mp hnodup
    have hjlt := hlt j List.mem_cons_self
    have hrest : ∀ i ∈ l, i < nIndirect := fun i hi => hlt i (List.mem_cons_of_mem j hi)
    have hstill : withoutPointed (s.held ip) (s.icache ip).inum (j :: l)
        ((s.icache ip).inum, .pointed ⟨j, hjlt⟩) = s.held ip ((s.icache ip).inum, .pointed ⟨j, hjlt⟩) :=
      if_neg fun hall => hall.2 List.mem_cons_self
    have hrelease := withoutPointed_release (s.held ip) (s.icache ip).inum (j := ⟨j, hjlt⟩) hj
    refine ends_ite (fun hzero => ?_) fun hne => ?_
    · refine ⟨ht, hnodup, hrest, hagrees.congr fun q => ?_⟩
      have hnone : s.held ip ((s.icache ip).inum, .pointed ⟨j, hjlt⟩) = none :=
        held_own_none.mpr (.inr ((hword _).trans hzero))
      rw [hrelease, ← hnone, ← hstill, update_eq_self]
    · have hheld : s.held ip ((s.icache ip).inum, .pointed ⟨j, hjlt⟩) =
          some ((s.blocks ((s.icache ip).copy.addrs (Fin.last nDirect))).uint j) :=
        held_own.mpr ⟨htype, hword _, hne⟩
      rw [← hstill] at hheld
      refine (bfree_ends (hagrees.alloc.marked_of_held hheld).2.2).imp ?_
      rintro _ _ rfl
      refine ⟨?_, hnodup, hrest, (hagrees.release hheld).congr hrelease⟩
      rw [ht]
      rfl
  · refine ⟨rfl, List.nodup_range, fun j hj => List.mem_range.mp hj, h.congr fun q => ?_⟩
    obtain ⟨n, e⟩ := q
    cases e with
    | direct i => rfl
    | indirect => rfl
    | pointed j => exact if_neg fun hall => hall.2 (List.mem_range.mpr j.isLt)
  · rintro _ t ⟨ht, -, -, hagrees⟩
    exact ⟨ht, hagrees⟩

theorem truncIndirect_ends (h : s.Kept sb ip) (htype : (s.icache ip).copy.type ≠ 0) :
    Ends (truncIndirect ip) s (fun _ t => t.Kept sb ip ∧ Shrunk ip s t ∧
      (t.icache ip).copy.addrs = update (s.icache ip).copy.addrs (Fin.last nDirect) 0)
      fun _ => False := by
  unfold truncIndirect
  rw [ends_get_bind]
  refine ends_ite (fun hzero => ?_) fun hne => ?_
  · refine ⟨h, .refl ip s, ?_⟩
    rw [← hzero, update_eq_self]
  rw [ends_get_bind]
  refine (pointedLoop_ends h htype hne).bind ?_
  rintro _ t ⟨ht, hagrees⟩
  have hheld : withoutPointed (s.held ip) (s.icache ip).inum [] ((s.icache ip).inum, .indirect) =
      some ((s.icache ip).copy.addrs (Fin.last nDirect)) := held_own.mpr ⟨htype, rfl, hne⟩
  refine (bfree_ends (hagrees.alloc.marked_of_held hheld).2.2).bind ?_
  rintro _ _ rfl
  have hshrunk : Shrunk ip s (t.mark ((s.icache ip).copy.addrs (Fin.last nDirect)) false) := by
    rw [ht]
    exact ⟨.of_icache rfl, rfl, rfl, rfl⟩
  refine ⟨(hagrees.release hheld).congr fun q => ?_, hshrunk.trans .of_setAddr, ?_⟩
  · rw [ht]
    exact held_setAddr_last
  · rw [addrs_setAddr, ht]
    rfl

theorem change_ends {f : Dinode → Dinode} :
    Ends (change ip f) s (fun _ t => Steady ip s t ∧ t.blocks = s.blocks ∧ t.bitmap = s.bitmap ∧
      (t.icache ip).copy = f (s.icache ip).copy ∧
      t.dinodes = update s.dinodes (s.icache ip).inum (f (s.icache ip).copy)) fun _ => False := by
  have hedit : (s.edit ip f).icache ip = { s.icache ip with copy := f (s.icache ip).copy } :=
    set_self s ip _
  refine ⟨(Steady.edit ip s f).trans (.of_icache rfl), rfl, rfl, congrArg Inode.copy hedit, ?_⟩
  show update s.dinodes ((s.edit ip f).icache ip).inum ((s.edit ip f).icache ip).copy = _
  rw [hedit]

theorem itrunc_ends (h : s.Kept sb ip) (htype : (s.icache ip).copy.type ≠ 0) :
    Ends (itrunc ip) s (fun _ t => Steady ip s t ∧ t.blocks = s.blocks ∧
      (t.icache ip).copy = { (s.icache ip).copy with size := 0, addrs := fun _ => 0 } ∧
      t.dinodes = update s.dinodes (s.icache ip).inum (t.icache ip).copy ∧
      Books sb t.dinodes t.bitmap t.blocks) fun _ => False := by
  unfold itrunc
  refine (truncLoop_ends h htype).bind ?_
  rintro _ t ⟨ht, hshrunk, hdirect⟩
  have htype' : (t.icache ip).copy.type ≠ 0 := by
    rw [hshrunk.copy]
    exact htype
  refine (truncIndirect_ends ht htype').bind ?_
  rintro _ u ⟨hu, hshrunk', haddrs⟩
  have hall := hshrunk.trans hshrunk'
  have hzero : (u.icache ip).copy.addrs = fun _ => 0 := by
    funext i
    rw [haddrs]
    induction i using Fin.lastCases with
    | last => rw [update_self]
    | cast i =>
      rw [update_of_ne (Fin.ne_of_lt (Fin.castSucc_lt_last i))]
      exact hdirect i
  have hinum : (u.icache ip).inum = (s.icache ip).inum := (hall.steady.fields ip).2.1
  refine change_ends.imp ?_
  rintro _ v ⟨hsteady, hblocks, hbitmap, hcopy, hdinodes⟩
  refine ⟨hall.steady.trans hsteady, hblocks.trans hall.blocks, ?_, ?_, ?_⟩
  · rw [hcopy, hall.copy, hzero]
  · rw [hdinodes, hcopy, hinum, hall.dinodes]
  · rw [hdinodes, hbitmap, hblocks]
    exact hu.congr (held_update_congr rfl rfl)

end Xv6.Files
