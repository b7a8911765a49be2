import Xv6.Files.Contents
import Xv6.Files.Truncation
import Xv6.Files.References

/-! # The books over whole runs

Every operation of the inode layer keeps the books, the blocks below the size of each file and the
agreement of the inode cache with the disk; a call is made of such operations, and so does a run.
-/

namespace Xv6.Files

open Function Lib
open Fs (Slot tDir tFile tDev slash)

/-- The inode cache shows the disk: an inode is cached once, and its copy is the inode on disk. -/
structure Coherent (s : Store) : Prop where
  dev : ∀ i, 0 < (s.icache i).ref → (s.icache i).dev = rootDev
  unique : ∀ i j, 0 < (s.icache i).ref → 0 < (s.icache j).ref →
    (s.icache i).inum = (s.icache j).inum → i = j
  valid : ∀ i, 0 < (s.icache i).ref → (s.icache i).valid = true →
    (s.icache i).copy = s.dinodes (s.icache i).inum ∧ (s.icache i).copy.type ≠ 0
  locked : ∀ i, (s.icache i).locked = true → 0 < (s.icache i).ref ∧ (s.icache i).valid = true

/-- The disk is in order, and the inode cache shows it. -/
structure Sound (sb : Superblock) (s : Store) : Prop where
  books : Books sb s.dinodes s.bitmap s.blocks
  filled : ∀ n, (s.dinodes n).type ≠ 0 → (s.dinodes n).type ≠ tDev →
    Filled s.blocks (s.dinodes n) (s.dinodes n).size
  coherent : Coherent s

theorem filled_iff {D : Nat → Dinode} {blocks : Nat → Block} {n bound : Nat} (htype : (D n).type ≠ 0) :
    Filled blocks (D n) bound ↔
      bound ≤ maxFile * bSize ∧ ∀ x, x < bound → content D blocks n x ≠ none := by
  have hbsize : 0 < bSize := by decide
  refine and_congr_right fun _ => ⟨fun h x hx => ?_, fun h bn hbn => ?_⟩
  · refine content_ne_none.mpr ⟨htype, h _ ?_⟩
    exact Nat.lt_of_le_of_lt (Nat.div_mul_le_self x bSize) hx
  · have hne := (content_ne_none.mp (h _ hbn)).2
    rw [Nat.mul_div_cancel _ hbsize] at hne
    exact hne

section Operations

variable {sb : Superblock} {s t : Store} {ip : Slot}

variable {off : Nat} {src : List UInt8}

theorem Coherent.touch (h : Coherent s) (hpos : 0 < (s.icache ip).ref)
    (hother : ∀ j, j ≠ ip → t.icache j = s.icache j)
    (hdinodes : ∀ n, n ≠ (s.icache ip).inum → t.dinodes n = s.dinodes n)
    (hdev : (t.icache ip).dev = (s.icache ip).dev) (hinum : (t.icache ip).inum = (s.icache ip).inum)
    (hvalid : 0 < (t.icache ip).ref → (t.icache ip).valid = true →
      (t.icache ip).copy = t.dinodes (s.icache ip).inum ∧ (t.icache ip).copy.type ≠ 0)
    (hlocked : (t.icache ip).locked = true → 0 < (t.icache ip).ref ∧ (t.icache ip).valid = true) :
    Coherent t := by
  have hid : ∀ j, 0 < (t.icache j).ref → 0 < (s.icache j).ref ∧
      (t.icache j).inum = (s.icache j).inum ∧ (t.icache j).dev = (s.icache j).dev := by
    intro j hj
    by_cases hji : j = ip
    · subst hji
      exact ⟨hpos, hinum, hdev⟩
    · rw [hother j hji] at hj ⊢
      exact ⟨hj, rfl, rfl⟩
  refine ⟨fun j hj => ?_, fun i j hi hj hij => ?_, fun j hj hv => ?_, fun j hl => ?_⟩
  · obtain ⟨hj', -, hd⟩ := hid j hj
    rw [hd]
    exact h.dev j hj'
  · obtain ⟨hi', hin, -⟩ := hid i hi
    obtain ⟨hj', hjn, -⟩ := hid j hj
    rw [hin, hjn] at hij
    exact h.unique i j hi' hj' hij
  · by_cases hji : j = ip
    · subst hji
      rw [hinum]
      exact hvalid hj hv
    obtain ⟨hj', -, -⟩ := hid j hj
    have hn : (s.icache j).inum ≠ (s.icache ip).inum := fun heq => hji (h.unique j ip hj' hpos heq)
    rw [hother j hji] at hv ⊢
    rw [hdinodes _ hn]
    exact h.valid j hj' hv
  · by_cases hji : j = ip
    · subst hji
      exact hlocked hl
    · rw [hother j hji] at hl ⊢
      exact h.locked j hl

theorem Sound.of_disk (h : Sound sb s) (hdinodes : t.dinodes = s.dinodes) (hbitmap : t.bitmap = s.bitmap)
    (hblocks : t.blocks = s.blocks) (hcoherent : Coherent t) : Sound sb t := by
  refine ⟨?_, ?_, hcoherent⟩
  · rw [hdinodes, hbitmap, hblocks]
    exact h.books
  · rw [hdinodes, hblocks]
    exact h.filled

/-- The caller that has a loaded inode sees the disk as it is. -/
theorem Coherent.view_eq (h : Coherent s) (hpos : 0 < (s.icache ip).ref)
    (hvalid : (s.icache ip).valid = true) : s.view ip = s.dinodes := by
  unfold Store.view
  rw [(h.valid ip hpos hvalid).1, update_eq_self]

theorem Sound.kept (h : Sound sb s) (hpos : 0 < (s.icache ip).ref)
    (hvalid : (s.icache ip).valid = true) : s.Kept sb ip := by
  unfold Store.Kept
  rw [h.coherent.view_eq hpos hvalid]
  exact h.books

/-- The messages of the inode layer with which a caller may have to live. -/
abbrev NotBfree (e : String) : Prop := e ≠ "freeing free block"

theorem iget_sound (h : Sound sb s) (inum : Nat) :
    Ends (iget rootDev inum) s (fun _ t => Sound sb t) NotBfree := by
  refine (iget_ends rootDev inum s).mono ?_ ?_
  · rintro i t ⟨hother, hdinodes, hblocks, hbitmap, hdev, hinum, href, hlocked, hcase⟩
    have hc := h.coherent
    refine h.of_disk hdinodes hbitmap hblocks ?_
    obtain ⟨hzero, hvalid, hnew⟩ | ⟨hpos, hdev', hinum', hvalid, hcopy⟩ := hcase
    · have hne : ∀ j, j ≠ i → 0 < (t.icache j).ref → (t.icache j).inum ≠ inum := by
        intro j hj hjpos heq
        rw [hother j hj] at hjpos heq
        exact hnew j hjpos ⟨hc.dev j hjpos, heq⟩
      refine ⟨fun j hj => ?_, fun j k hj hk hjk => ?_, fun j hj hv => ?_, fun j hl => ?_⟩
      · by_cases hji : j = i
        · rw [hji]
          exact hdev
        · rw [hother j hji] at hj ⊢
          exact hc.dev j hj
      · by_cases hji : j = i <;> by_cases hki : k = i
        · rw [hji, hki]
        · rw [hji, hinum] at hjk
          exact absurd hjk.symm (hne k hki hk)
        · rw [hki, hinum] at hjk
          exact absurd hjk (hne j hji hj)
        · rw [hother j hji] at hj hjk
          rw [hother k hki] at hk hjk
          exact hc.unique j k hj hk hjk
      · by_cases hji : j = i
        · rw [hji, hvalid] at hv
          cases hv
        · rw [hother j hji] at hj hv ⊢
          rw [hdinodes]
          exact hc.valid j hj hv
      · by_cases hji : j = i
        · rw [hji, hlocked] at hl
          have := (hc.locked i hl).1
          omega
        · rw [hother j hji] at hl ⊢
          exact hc.locked j hl
    · refine hc.touch hpos hother (fun n _ => by rw [hdinodes]) (hdev.trans hdev'.symm)
        (hinum.trans hinum'.symm) (fun _ hv => ?_) fun hl => ?_
      · rw [hvalid] at hv
        rw [hcopy, hdinodes]
        exact hc.valid i hpos hv
      · rw [hlocked] at hl
        rw [hvalid, href]
        exact ⟨by omega, (hc.locked i hl).2⟩
  · rintro e ⟨rfl, -⟩
    decide

theorem Sound.set (h : Sound sb s) (hpos : 0 < (s.icache ip).ref) {g : Inode → Inode}
    (hdev : (g (s.icache ip)).dev = (s.icache ip).dev)
    (hinum : (g (s.icache ip)).inum = (s.icache ip).inum) (hvalid : (g (s.icache ip)).valid = true →
      (g (s.icache ip)).copy = s.dinodes (s.icache ip).inum ∧ (g (s.icache ip)).copy.type ≠ 0)
    (hlocked : (g (s.icache ip)).locked = true → 0 < (g (s.icache ip)).ref ∧
      (g (s.icache ip)).valid = true) : Sound sb (s.set ip g) := by
  rw [← set_self s ip g] at hdev hinum hvalid hlocked
  exact h.of_disk rfl rfl rfl (h.coherent.touch hpos (fun _ hj => set_of_ne s _ hj) (fun _ _ => rfl)
    hdev hinum (fun _ => hvalid) hlocked)

theorem idup_sound (h : Sound sb s) (hpos : 0 < (s.icache ip).ref) :
    Ends (idup ip) s (fun _ t => Sound sb t) NotBfree := by
  refine h.set hpos rfl rfl (h.coherent.valid ip hpos) fun hl => ⟨?_, (h.coherent.locked ip hl).2⟩
  dsimp only
  omega

theorem ilock_sound (h : Sound sb s) (ip : Slot) :
    Ends (ilock ip) s (fun _ t => Sound sb t) NotBfree := by
  refine (ilock_ends ip s).mono ?_ fun _ he => he.1
  rintro _ _ ⟨hpos, -, d, hd, rfl⟩
  refine h.set hpos rfl rfl (fun _ => ?_) fun _ => ⟨hpos, rfl⟩
  rcases hd with ⟨hvalid, rfl⟩ | hd
  · exact h.coherent.valid ip hpos hvalid
  · exact hd

theorem iunlock_sound (h : Sound sb s) (ip : Slot) :
    Ends (iunlock ip) s (fun _ t => Sound sb t) NotBfree := by
  refine (iunlock_ends ip s).mono ?_ ?_
  · rintro _ _ ⟨hpos, rfl⟩
    exact h.set hpos rfl rfl (h.coherent.valid ip hpos) nofun
  · rintro _ ⟨rfl, -⟩
    decide

/-- The disk is in order while `iput` has the lock. -/
structure Putting (sb : Superblock) (ip : Slot) (s t : Store) : Prop where
  other : ∀ j, j ≠ ip → t.icache j = s.icache j
  dev : (t.icache ip).dev = (s.icache ip).dev
  inum : (t.icache ip).inum = (s.icache ip).inum
  ref : (t.icache ip).ref = (s.icache ip).ref
  dinodes : ∀ n, n ≠ (s.icache ip).inum → t.dinodes n = s.dinodes n
  valid : (t.icache ip).valid = true →
    (t.icache ip).copy = t.dinodes (s.icache ip).inum ∧ (t.icache ip).copy.type ≠ 0
  books : Books sb t.dinodes t.bitmap t.blocks
  filled : ∀ n, (t.dinodes n).type ≠ 0 → (t.dinodes n).type ≠ tDev →
    Filled t.blocks (t.dinodes n) (t.dinodes n).size

theorem ifree_eq : ifree ip = itrunc ip >>= fun _ =>
    change ip (fun d => { d with type := 0 }) >>= fun _ =>
      modify (·.set ip fun x => { x with valid := false }) := by
  simp only [ifree, change, bind_assoc]

theorem ifree_putting (h : Putting sb ip s t) (hkept : t.Kept sb ip)
    (htype : (t.icache ip).copy.type ≠ 0) :
    Ends (ifree ip) t (fun _ u => Putting sb ip s u) fun _ => False := by
  rw [ifree_eq]
  refine (itrunc_ends hkept htype).bind ?_
  rintro _ u ⟨hsteady, hblocks, hcopy, hdinodes, hbooks⟩
  refine change_ends.bind ?_
  rintro _ v ⟨hsteady', hblocks', hbitmap', -, hdinodes'⟩
  rw [ends_modify]
  have hinum : (u.icache ip).inum = (s.icache ip).inum := ((hsteady.fields ip).2.1).trans h.inum
  have hsteady := hsteady.trans hsteady'
  obtain ⟨hdev, hinum', href, -, -⟩ := hsteady.fields ip
  have hself := set_self v ip fun x => { x with valid := false }
  have hnew : v.dinodes = update u.dinodes (s.icache ip).inum
      { (u.icache ip).copy with type := 0 } := by rw [hdinodes', hinum]
  have hold : u.dinodes = update u.dinodes (s.icache ip).inum (u.icache ip).copy := by
    rw [hdinodes, h.inum, update_idem]
  have hsame : ∀ n, n ≠ (s.icache ip).inum → v.dinodes n = t.dinodes n := by
    intro n hn
    rw [hnew, update_of_ne hn, hdinodes, h.inum, update_of_ne hn]
  refine ⟨fun j hj => ?_, ?_, ?_, ?_, fun n hn => (hsame n hn).trans (h.dinodes n hn), fun hv => ?_, ?_,
    fun n hn hdev => ?_⟩
  · exact (set_of_ne v _ hj).trans ((hsteady.other j hj).trans (h.other j hj))
  · rw [hself]
    exact hdev.trans h.dev
  · rw [hself]
    exact hinum'.trans h.inum
  · rw [hself]
    exact href.trans h.ref
  · rw [hself] at hv
    cases hv
  · show Books sb v.dinodes v.bitmap v.blocks
    rw [hnew, hbitmap', hblocks']
    refine hbooks.congr fun p => ?_
    rw [hold, update_idem]
    refine held_update_free (.inr ?_) (.inl rfl) p
    rw [hcopy]
  · change (v.dinodes n).type ≠ 0 at hn
    have hne : n ≠ (s.icache ip).inum := by
      rintro rfl
      rw [hnew, update_self] at hn
      exact hn rfl
    change (v.dinodes n).type ≠ tDev at hdev
    show Filled v.blocks (v.dinodes n) (v.dinodes n).size
    rw [hsame n hne] at hn hdev ⊢
    rw [hblocks', hblocks]
    exact h.filled n hn hdev

theorem iput_sound (h : Sound sb s) (hpos : 0 < (s.icache ip).ref) :
    Ends (iput ip) s (fun _ t => Sound sb t) NotBfree := by
  unfold iput
  refine ((acquiresleep_ends ip s).mono (fun _ _ => id) ?_).bind ?_
  · rintro _ ⟨rfl, -⟩
    decide
  rintro _ _ ⟨-, rfl⟩
  have hself := set_self s ip fun x => { x with locked := true }
  have hstart : Putting sb ip s (s.set ip fun x => { x with locked := true }) := by
    refine ⟨fun j hj => set_of_ne s _ hj, ?_, ?_, ?_, fun _ _ => rfl, fun hv => ?_, h.books, h.filled⟩
    · rw [hself]
    · rw [hself]
    · rw [hself]
    · rw [hself] at hv ⊢
      exact h.coherent.valid ip hpos hv
  rw [ends_get_bind]
  refine Ends.bind (Q := fun _ t => Putting sb ip s t) ?_ fun _ t ht => ?_
  · refine ends_ite (fun hlast => ?_) fun _ => hstart
    have hvalid : (s.icache ip).valid = true := by
      have := hlast.1
      rw [hself] at this
      exact this
    have hkept : (s.set ip fun x => { x with locked := true }).Kept sb ip := by
      have hview : (s.set ip fun x => { x with locked := true }).view ip = s.view ip := by
        unfold Store.view
        rw [hself]
        rfl
      unfold Store.Kept
      rw [hview]
      exact h.kept hpos hvalid
    refine (ifree_putting hstart hkept ?_).mono (fun _ _ => id) fun _ => False.elim
    rw [hself]
    exact (h.coherent.valid ip hpos hvalid).2
  · unfold releasesleep
    rw [ends_modify_bind, ends_modify]
    have hend : ((t.set ip fun x => { x with locked := false }).set ip fun x =>
        { x with ref := x.ref - 1 }).icache ip =
        { t.icache ip with locked := false, ref := (t.icache ip).ref - 1 } := by
      rw [set_self, set_self]
    refine ⟨ht.books, ht.filled, h.coherent.touch hpos (fun j hj => ?_) ht.dinodes ?_ ?_
      (fun _ hv => ?_) fun hl => ?_⟩
    · exact (set_of_ne _ _ hj).trans ((set_of_ne t _ hj).trans (ht.other j hj))
    · rw [hend]
      exact ht.dev
    · rw [hend]
      exact ht.inum
    · rw [hend] at hv ⊢
      exact ht.valid hv
    · rw [hend] at hl
      cases hl

theorem ialloc_sound (h : Sound sb s) (type : Nat) :
    Ends (ialloc sb rootDev type) s (fun _ t => Sound sb t) NotBfree := by
  unfold ialloc
  rw [ends_get_bind]
  cases hfind : (List.range sb.ninodes).find? fun inum => 1 ≤ inum && (s.dinodes inum).type == 0 with
  | none => exact ends_throw.mpr (by decide)
  | some n =>
    have hfree : (s.dinodes n).type = 0 := by
      have := List.find?_some hfind
      simp only [Bool.and_eq_true, beq_iff_eq] at this
      exact this.2
    rw [ends_modify_bind]
    refine iget_sound ⟨?_, fun m hm hdev => ?_, ?_⟩ n
    · refine h.books.congr fun p => ?_
      have hnew : held (update s.dinodes n (Dinode.new type)) s.blocks p =
          held (update s.dinodes n (s.dinodes n)) s.blocks p :=
        held_update_free (.inl hfree) (.inr rfl) p
      rw [update_eq_self] at hnew
      exact hnew
    · by_cases hmn : m = n
      · subst hmn
        dsimp only
        rw [update_self]
        exact ⟨Nat.zero_le _, fun bn hbn => absurd hbn (Nat.not_lt_zero _)⟩
      · dsimp only at hm hdev ⊢
        rw [update_of_ne hmn] at hm hdev ⊢
        exact h.filled m hm hdev
    · refine ⟨h.coherent.dev, h.coherent.unique, fun i hi hv => ?_, h.coherent.locked⟩
      obtain ⟨hcopy, hne⟩ := h.coherent.valid i hi hv
      have hin : (s.icache i).inum ≠ n := by
        intro heq
        rw [hcopy, heq] at hne
        exact hne hfree
      dsimp only
      rw [update_of_ne hin]
      exact ⟨hcopy, hne⟩

theorem Sound.lock (h : Sound sb s) (hlock : (s.icache ip).locked = true) :
    0 < (s.icache ip).ref ∧ (s.icache ip).copy = s.dinodes (s.icache ip).inum ∧
      (s.icache ip).copy.type ≠ 0 ∧ s.Kept sb ip ∧ s.view ip = s.dinodes := by
  obtain ⟨hpos, hvalid⟩ := h.coherent.locked ip hlock
  obtain ⟨hcopy, htype⟩ := h.coherent.valid ip hpos hvalid
  exact ⟨hpos, hcopy, htype, h.kept hpos hvalid, h.coherent.view_eq hpos hvalid⟩

/-- The inode of a locked entry is written back; the entries of the inodes are as in `s`. -/
theorem Coherent.saved (h : Coherent s) (hlock : (s.icache ip).locked = true) (hsteady : Steady ip s t)
    (hdinodes : t.dinodes = update s.dinodes (s.icache ip).inum (t.icache ip).copy)
    (htype : (t.icache ip).copy.type ≠ 0) : Coherent t := by
  obtain ⟨hpos, -⟩ := h.locked ip hlock
  obtain ⟨hdev, hinum, href, hlocked, hvalid⟩ := hsteady.fields ip
  refine h.touch hpos hsteady.other (fun n hn => ?_) hdev hinum (fun _ _ => ⟨?_, htype⟩) fun hl => ?_
  · rw [hdinodes, update_of_ne hn]
  · rw [hdinodes, update_self]
  · rw [hlocked] at hl
    rw [href, hvalid]
    exact h.locked ip hl

theorem change_sound (h : Sound sb s) (hlock : (s.icache ip).locked = true) {f : Dinode → Dinode}
    (hf : ∀ d, (f d).type = d.type ∧ (f d).size = d.size ∧ (f d).addrs = d.addrs) :
    Ends (change ip f) s (fun _ t => Sound sb t) NotBfree := by
  obtain ⟨hpos, hcopy, htype, -, -⟩ := h.lock hlock
  refine change_ends.mono ?_ fun _ => False.elim
  rintro _ t ⟨hsteady, hblocks, hbitmap, hnew, hdinodes⟩
  obtain ⟨hftype, hfsize, hfaddrs⟩ := hf (s.icache ip).copy
  have hheld : ∀ p, held t.dinodes t.blocks p = held s.dinodes s.blocks p := by
    intro p
    rw [hdinodes, hblocks, held_update_congr hftype hfaddrs, hcopy,
      update_eq_self]
  refine ⟨?_, fun n hn hdev => ?_, h.coherent.saved hlock hsteady ?_ ?_⟩
  · rw [hbitmap]
    exact h.books.congr hheld
  · have hfields : (t.dinodes n).type = (s.dinodes n).type ∧ (t.dinodes n).size = (s.dinodes n).size := by
      rw [hdinodes]
      by_cases hni : n = (s.icache ip).inum
      · rw [hni, update_self, hftype, hfsize, hcopy]
        exact ⟨rfl, rfl⟩
      · rw [update_of_ne hni]
        exact ⟨rfl, rfl⟩
    rw [filled_iff hn, hfields.2]
    rw [hfields.1] at hn hdev
    obtain ⟨hle, hall⟩ := (filled_iff hn).mp (h.filled n hn hdev)
    refine ⟨hle, fun x hx => ?_⟩
    rw [content_congr (fun e => hheld (n, e)) fun _ _ _ _ => by rw [hblocks]]
    exact hall x hx
  · rw [hdinodes, hnew]
  · rw [hnew, hftype]
    exact htype

theorem readi_sound (h : Sound sb s) (hlock : (s.icache ip).locked = true) (off n : Nat)
    (input : List UInt8) : Ends (readi sb ip off n input) s (fun _ t => Sound sb t) NotBfree := by
  obtain ⟨hpos, hcopy, htype, -, -⟩ := h.lock hlock
  by_cases hdev : (s.icache ip).copy.type = tDev
  · unfold readi
    rw [ends_get_bind]
    rw [if_pos hdev]
    exact ends_ite (fun _ => h) fun _ => h
  · have hfilled : Filled s.blocks (s.icache ip).copy (s.icache ip).copy.size := by
      rw [hcopy] at htype hdev ⊢
      exact h.filled _ htype hdev
    refine (readi_ends hdev hfilled).mono ?_ fun _ => False.elim
    rintro r t ⟨rfl, -⟩
    exact h

theorem Wrote.filled {n : Nat} (h : Wrote ip off src s t) (bound : Nat)
    (hall : ∀ x, x < bound → s.content ip n x ≠ none) {x : Nat}
    (hx : x < bound ∨ n = (s.icache ip).inum ∧ off ≤ bound ∧ x < off + src.length) :
    t.content ip n x ≠ none := by
  by_cases hin : n = (s.icache ip).inum ∧ off ≤ x ∧ x < off + src.length
  · obtain ⟨rfl, hle, hlt⟩ := hin
    rw [h.hit x hle hlt]
    exact nofun
  · have hold : s.content ip n x ≠ none := hall x (by omega)
    obtain ⟨v, hv⟩ := Option.ne_none_iff_exists'.mp hold
    rw [(h.rest n x (by omega)).some hv]
    exact nofun

/-- `writei` takes the range: it begins in the file or at its end, and files may be that long. -/
def Dinode.Accepts (d : Dinode) (off n : Nat) : Prop :=
  off ≤ d.size ∧ ¬ (off + n) % uintMod < off ∧ off + n ≤ maxFile * bSize

/-- The bytes `src` are on disk in the file of `ip`, and its size covers them. -/
structure Written (ip : Slot) (off : Nat) (src : List UInt8) (s t : Store) : Prop where
  size : (t.dinodes (s.icache ip).inum).size = max (s.icache ip).copy.size (off + src.length)
  other : ∀ n, n ≠ (s.icache ip).inum → t.dinodes n = s.dinodes n
  hit : ∀ x, off ≤ x → x < off + src.length →
    content t.dinodes t.blocks (s.icache ip).inum x = some (src.getD (x - off) 0)
  rest : ∀ n x, (n = (s.icache ip).inum → x < off ∨ off + src.length ≤ x) →
    SameOrZero (content s.dinodes s.blocks n x) (content t.dinodes t.blocks n x)

/-- The inode is written back after its bytes, with the size that covers them. -/
theorem Wrote.saved {u : Store} (hwrote : Wrote ip off src s t) (h : Sound sb s)
    (hlock : (s.icache ip).locked = true) (hoff : off ≤ (s.icache ip).copy.size)
    (hmax : off + src.length ≤ maxFile * bSize) (ht : t.Kept sb ip) (hsteady : Steady ip t u)
    (hblocks : u.blocks = t.blocks) (hbitmap : u.bitmap = t.bitmap) (hnew : (u.icache ip).copy =
      { (t.icache ip).copy with size := max (s.icache ip).copy.size (off + src.length) })
    (hdinodes : u.dinodes = update s.dinodes (s.icache ip).inum (u.icache ip).copy) :
    Sound sb u ∧ Written ip off src s u := by
  obtain ⟨hpos, hcopy, htype, -, hview⟩ := h.lock hlock
  have hself : u.dinodes (s.icache ip).inum = (u.icache ip).copy := by rw [hdinodes, update_self]
  have hother : ∀ n, n ≠ (s.icache ip).inum → u.dinodes n = s.dinodes n := fun n hn => by
    rw [hdinodes, update_of_ne hn]
  have hutype : (u.icache ip).copy.type = (s.icache ip).copy.type := by rw [hnew, hwrote.copy]
  have husize : (u.icache ip).copy.size = max (s.icache ip).copy.size (off + src.length) := by rw [hnew]
  have hheld : ∀ p, held u.dinodes u.blocks p = t.held ip p := by
    intro p
    rw [hdinodes, hblocks, ← hwrote.dinodes, ← hwrote.inum]
    apply held_update_congr
    · rw [hnew]
    · rw [hnew]
  have hcontent : ∀ n x, content u.dinodes u.blocks n x = t.content ip n x := fun n x =>
    content_congr (fun e => hheld (n, e)) fun _ _ _ _ => by rw [hblocks]
  have hold : ∀ n x, content s.dinodes s.blocks n x = s.content ip n x := fun n x => by
    unfold Store.content
    rw [hview]
  refine ⟨⟨?_, fun n hn hnd => ?_, h.coherent.saved hlock (hwrote.steady.trans hsteady) hdinodes ?_⟩,
    by rw [hself, husize], hother, fun x hle hlt => ?_, fun n x hout => ?_⟩
  · rw [hbitmap]
    exact ht.congr hheld
  · rw [filled_iff hn]
    simp only [hcontent]
    by_cases hni : n = (s.icache ip).inum
    · subst hni
      rw [hself] at hn hnd ⊢
      rw [hutype, hcopy] at hn hnd
      obtain ⟨hle, hall⟩ := (filled_iff hn).mp (h.filled _ hn hnd)
      simp only [hold] at hall
      rw [← hcopy] at hle hall
      rw [husize]
      refine ⟨by omega, fun x hx => hwrote.filled _ hall ?_⟩
      by_cases hlt : x < (s.icache ip).copy.size
      · exact .inl hlt
      · exact .inr ⟨rfl, hoff, by omega⟩
    · rw [hother n hni] at hn hnd ⊢
      obtain ⟨hle, hall⟩ := (filled_iff hn).mp (h.filled n hn hnd)
      simp only [hold] at hall
      exact ⟨hle, fun x hx => hwrote.filled _ hall (.inl hx)⟩
  · rw [hutype]
    exact htype
  · rw [hcontent]
    exact hwrote.hit x hle hlt
  · rw [hcontent, hold]
    exact hwrote.rest n x hout

theorem writei_refuses (hdev : (s.icache ip).copy.type ≠ tDev)
    (hout : ¬ (s.icache ip).copy.Accepts off src.length) :
    Ends (writei sb ip src off) s (fun r t => r = none ∧ t = s) fun _ => False := by
  unfold writei
  rw [ends_get_bind]
  rw [if_neg hdev]
  refine ends_ite (fun _ => ⟨rfl, rfl⟩) fun hin => ends_ite (fun _ => ⟨rfl, rfl⟩) fun hmax => absurd ?_ hout
  rw [not_or] at hin
  exact ⟨Nat.not_lt.mp hin.1, hin.2, Nat.not_lt.mp hmax⟩

theorem writei_ends (hwide : sb.size ≤ 2 ^ 32) (h : Sound sb s)
    (hlock : (s.icache ip).locked = true) (hdev : (s.icache ip).copy.type ≠ tDev)
    (haccepts : (s.icache ip).copy.Accepts off src.length) :
    Ends (writei sb ip src off) s (fun r t => r = some src.length ∧ Sound sb t ∧ Written ip off src s t)
      (Short sb ip (touched off src.length) s) := by
  obtain ⟨hpos, hcopy, htype, hkept, hview⟩ := h.lock hlock
  obtain ⟨hoff, hwraps, hmax⟩ := haccepts
  unfold writei
  rw [ends_get_bind]
  rw [if_neg hdev, if_neg (not_or.mpr ⟨Nat.not_lt.mpr hoff, hwraps⟩), if_neg (Nat.not_lt.mpr hmax)]
  refine (writeLoop_ends hkept htype hwide (Nat.le_refl _) hmax).bind ?_
  rintro _ t ⟨ht, hwrote⟩
  rw [ends_get_bind]
  have hsize : (t.icache ip).copy.size = (s.icache ip).copy.size := by rw [hwrote.copy]
  refine Ends.bind (Q := fun _ u => Sound sb u ∧ Written ip off src s u)
    (ends_ite (fun hgrow => ?_) fun hgrow => ?_) fun _ u hu => ⟨rfl, hu⟩
  · refine change_ends.mono ?_ fun _ => False.elim
    rintro _ u ⟨hsteady, hblocks, hbitmap, hnew, hdinodes⟩
    refine hwrote.saved h hlock hoff hmax ht hsteady hblocks hbitmap ?_ ?_
    · rw [hnew, Nat.max_eq_right (by omega)]
    · rw [hdinodes, hnew, hwrote.dinodes, hwrote.inum]
  -- nothing is entered, since every byte that is written has its block
  have hicache : t.icache = s.icache := by
    refine hwrote.icache fun x hle hlt => ?_
    unfold Store.content
    rw [hview]
    rw [hcopy] at htype hdev hsize
    refine ((filled_iff htype).mp (h.filled _ htype hdev)).2 x ?_
    omega
  refine hwrote.saved h hlock hoff hmax ht (.refl ip t) rfl rfl ?_ ?_
  · rw [Nat.max_eq_left (by omega), hicache]
  · rw [hwrote.dinodes, hicache, hcopy, update_eq_self]

theorem writei_sound (hwide : sb.size ≤ 2 ^ 32) (h : Sound sb s) (hlock : (s.icache ip).locked = true)
    (src : List UInt8) (off : Nat) : Ends (writei sb ip src off) s (fun _ t => Sound sb t) NotBfree := by
  by_cases hdev : (s.icache ip).copy.type = tDev
  · unfold writei
    rw [ends_get_bind]
    rw [if_pos hdev]
    exact ends_ite (fun _ => h) fun _ => h
  by_cases haccepts : (s.icache ip).copy.Accepts off src.length
  · refine (writei_ends hwide h hlock hdev haccepts).mono (fun _ _ hw => hw.2.1) ?_
    rintro _ ⟨rfl, -⟩
    decide
  · refine (writei_refuses hdev haccepts).mono ?_ fun _ => False.elim
    rintro _ _ ⟨-, rfl⟩
    exact h

/-- Every operation of the inode layer keeps the disk in order. -/
theorem Op.sound (hwide : sb.size ≤ 2 ^ 32) {α : Type} (o : Op α) (h : Sound sb s) (hallowed : o.Allowed s) :
    Ends (o.code sb) s (fun _ t => Sound sb t) NotBfree := by
  cases o with
  | iget inum => exact iget_sound h inum
  | idup ip => exact idup_sound h hallowed
  | ilock ip => exact ilock_sound h ip
  | iunlock ip => exact iunlock_sound h ip
  | iput ip => exact iput_sound h hallowed
  | ialloc type => exact ialloc_sound h type
  | change ip f => exact change_sound h hallowed.1 hallowed.2
  | readi ip off n input => exact readi_sound h hallowed off n input
  | writei ip src off => exact writei_sound hwide h hallowed src off

theorem Sound.prims (hwide : sb.size ≤ 2 ^ 32) (h : Sound sb s) (hprims : Prims sb s t) : Sound sb t := by
  induction hprims with
  | refl => exact h
  | tail _ hprim ih =>
    obtain ⟨α, o, r, hallowed, hok⟩ := hprim
    exact (o.sound hwide ih hallowed).returned hok

theorem Sound.fails (hwide : sb.size ≤ 2 ^ 32) (h : Sound sb s) {e : String} (hfails : Fails sb s e) :
    NotBfree e := by
  obtain hupper | ⟨t, hprims, α, o, hallowed, herr⟩ := hfails
  · rintro rfl
    exact absurd hupper (by decide)
  · exact (o.sound hwide (h.prims hwide hprims) hallowed).stopped herr

end Operations

/-! ## Whole runs -/

theorem Sound.step {sb : Superblock} (hwide : sb.size ≤ 2 ^ 32) {k k' : Kernel} {e : Event}
    (h : (∃ H, Accounts k H ∅) ∧ Sound sb k.store) (hstep : Step sb k e k') :
    (∃ H, Accounts k' H ∅) ∧ Sound sb k'.store := by
  obtain ⟨⟨H, haccounts⟩, hsound⟩ := h
  obtain ⟨D, haccounts', -⟩ := haccounts.step hstep
  refine ⟨⟨_, haccounts'⟩, ?_⟩
  cases hstep with
  | call hlive hcall =>
    exact hsound.prims hwide ((Ends.returned (call_does haccounts.rests hlive) hcall).1 trivial)
  | kalloc =>
    unfold takePage
    split
    · exact hsound
    · exact hsound
  | kfree page =>
    unfold givePage
    split
    · exact hsound
    · exact hsound

/-- In every state between two calls, every file has the blocks below its size, no block is named
twice, and the bitmap marks the blocks of the data area that are named. So a call never panics in
`bfree`, and between its operations `balloc` returns no block that is in use. -/
theorem block_allocation {sb : Superblock} (hwide : sb.size ≤ 2 ^ 32) {k0 k : Kernel} {es : List Event}
    (hquiet : Between k0) (hbal : Balanced k0) (himage : Sound sb k0.store)
    (hrun : Run (Step sb) k0 es k) :
    (∀ n, (k.store.dinodes n).type ≠ 0 → (k.store.dinodes n).type ≠ tDev →
      ∀ bn, bn < ((k.store.dinodes n).size + bSize - 1) / bSize →
        (k.store.dinodes n).block k.store.blocks bn ≠ 0) ∧
    (∀ p q b, held k.store.dinodes k.store.blocks p = some b →
      held k.store.dinodes k.store.blocks q = some b → p = q) ∧
    (∀ b, sb.dataStart ≤ b → b < sb.size →
      (k.store.bitmap b = true ↔ ∃ p, held k.store.dinodes k.store.blocks p = some b)) ∧
    (∀ s, Prims sb k.store s → ∀ b t, balloc sb s = .ok (b, t) → ∀ p, held s.dinodes s.blocks p ≠ some b) ∧
    ∀ a c buf, (k.procs a).Live → call sb a buf c k ≠ .error "freeing free block" := by
  obtain ⟨⟨H, haccounts⟩, hsound⟩ := hrun.invariant
    (fun _ _ _ hinv hstep => Sound.step hwide hinv hstep) ⟨⟨0, hquiet.accounts hbal⟩, himage⟩
  refine ⟨fun n htype hdev bn hbn => ?_, fun p q b hp hq => hsound.books.alloc.unique hp hq,
    fun b hstart hsize => ?_, fun s hprims b t hballoc p hp => ?_, fun a c buf hlive herr => ?_⟩
  · refine (hsound.filled n htype hdev).2 bn ?_
    unfold bSize at hbn ⊢
    omega
  · rw [← hsound.books.alloc.marked_iff]
    exact ⟨fun hb => ⟨hstart, hsize, hb⟩, fun hb => hb.2.2⟩
  · obtain ⟨-, hfree, -⟩ := balloc_ends.returned hballoc
    exact (hsound.prims hwide hprims).books.ne_of_free hfree hp rfl
  · exact hsound.fails hwide (Ends.stopped (call_does haccounts.rests hlive) herr trivial) rfl

/-- A disk of twenty blocks, with nothing on it but an empty root directory. -/
def emptyDisk : Kernel :=
  { rootOnly with store := { rootOnly.store with bitmap := fun b => decide (b < 4) } }

theorem emptyDisk_between : Between emptyDisk :=
  ⟨rootOnly_between.unlocked, rootOnly_between.dev, rootOnly_between.files, rootOnly_between.procs⟩

theorem emptyDisk_sound {size : Nat} (hsize : size < bSize * 8) : Sound ⟨size, 10, 3⟩ emptyDisk.store := by
  have hstart : Superblock.dataStart ⟨size, 10, 3⟩ = 4 := by
    simp [Superblock.dataStart, Nat.div_eq_of_lt hsize]
  have hroot : ∀ n, (emptyDisk.store.dinodes n).addrs = fun _ => 0 := by
    intro n
    simp only [emptyDisk, rootOnly]
    split <;> rfl
  have hnone : ∀ p, held emptyDisk.store.dinodes emptyDisk.store.blocks p = none := by
    rintro ⟨n, e⟩
    refine held_eq_none.mpr (.inr ?_)
    cases e with
    | direct i | indirect => exact congrFun (hroot n) _
    | pointed j => exact if_pos (congrFun (hroot n) _)
  have hfirst : ∀ i, 0 < (emptyDisk.store.icache i).ref → i = 0 := by
    intro i hi
    by_contra hne
    simp [emptyDisk, rootOnly, hne] at hi
  refine ⟨.empty hnone fun b => ?_, fun n hn _ => ?_, ?_⟩
  · rw [hstart]
    exact decide_eq_true_iff
  · have hsize : (emptyDisk.store.dinodes n).size = 0 := by
      simp only [emptyDisk, rootOnly]
      split <;> rfl
    rw [hsize]
    exact ⟨Nat.zero_le _, fun bn hbn => absurd hbn (Nat.not_lt_zero _)⟩
  · refine ⟨fun _ _ => rfl, fun i j hi hj _ => (hfirst i hi).trans (hfirst j hj).symm, fun i _ _ => ?_,
      fun i hl => Bool.noConfusion hl⟩
    exact ⟨rfl, show tDir ≠ 0 by decide⟩

/-- A file is written, and its block is free again after its name and its descriptor are gone. -/
theorem block_allocation_reuse :
    (∃ k, Run (Step ⟨20, 10, 3⟩) emptyDisk [.call 0 (.open [slash, 102] (oCreate + oWronly)) [],
        .call 0 (.write 0 [7]) []] k ∧
      ∃ p, held k.store.dinodes k.store.blocks p = some 5) ∧
    ∃ k, Run (Step ⟨20, 10, 3⟩) emptyDisk [.call 0 (.open [slash, 102] (oCreate + oWronly)) [],
        .call 0 (.write 0 [7]) [], .call 0 (.unlink [slash, 102]) [], .call 0 (.close 0) []] k ∧
      (∃ p, held k.store.dinodes k.store.blocks p = some 4) ∧
      ∀ p, held k.store.dinodes k.store.blocks p ≠ some 5 := by
  have hbal : Balanced emptyDisk := rootOnly_balanced
  constructor
  · refine Run.found step_of_next (fun k => k.store.bitmap 5 = true) (by decide +kernel) fun k hrun hbit => ?_
    have hall := block_allocation (by decide) emptyDisk_between hbal (emptyDisk_sound (by decide)) hrun
    exact (hall.2.2.1 5 (by decide) (by decide)).mp hbit
  · refine Run.found step_of_next (fun k => k.store.bitmap 4 = true ∧ ¬ k.store.bitmap 5 = true)
      (by decide +kernel) fun k hrun hbits => ?_
    have hall := block_allocation (by decide) emptyDisk_between hbal (emptyDisk_sound (by decide)) hrun
    exact ⟨(hall.2.2.1 4 (by decide) (by decide)).mp hbits.1,
      fun p hp => hbits.2 ((hall.2.2.1 5 (by decide) (by decide)).mpr ⟨p, hp⟩)⟩

end Xv6.Files
