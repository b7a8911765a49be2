import Xv6.Files.BlockRuns

/-! # The content of an inode as an array of bytes -/

namespace Xv6.Files

open Lib
open Fs (Slot tDir tDev)

variable {sb : Superblock} {s t : Store} {ip : Slot} {n off : Nat} {src : List UInt8}

def Store.file (s : Store) (n : Nat) : List UInt8 := (s.dinodes n).bytes s.blocks 0 (s.dinodes n).size

/-- `c` with the bytes `src` at `off`, and longer than before if they reach behind its end. -/
def splice (c : List UInt8) (off : Nat) (src : List UInt8) : List UInt8 :=
  c.take off ++ src ++ c.drop (off + src.length)

theorem length_splice {c : List UInt8} (h : off ≤ c.length) :
    (splice c off src).length = max c.length (off + src.length) := by
  simp only [splice, List.length_append, List.length_take, List.length_drop]
  omega

theorem getD_splice {c : List UInt8} (h : off ≤ c.length) (x : Nat) : (splice c off src).getD x 0 =
    if off ≤ x ∧ x < off + src.length then src.getD (x - off) 0 else c.getD x 0 := by
  have htake : (c.take off).length = off := by simpa using h
  simp only [splice, List.getD_eq_getElem?_getD, List.getElem?_append, List.length_append, htake,
    List.getElem?_take, List.getElem?_drop]
  split
  · split
    · rw [if_neg (by omega)]
    · rw [if_pos (by omega)]
  · rw [if_neg (by omega)]
    congr 2
    omega

theorem length_file : (s.file n).length = (s.dinodes n).size := by
  simp [Store.file, Dinode.bytes]

/-- The bytes below the size of a file that has its blocks. -/
theorem Sound.content (h : Sound sb s) (htype : (s.dinodes n).type ≠ 0) (hdev : (s.dinodes n).type ≠ tDev)
    {x : Nat} (hx : x < (s.file n).length) :
    content s.dinodes s.blocks n x = some ((s.file n).getD x 0) := by
  rw [length_file] at hx
  have hne := ((filled_iff htype).mp (h.filled n htype hdev)).2 x hx
  refine content_eq_some.mpr ⟨htype, (content_ne_none.mp hne).2, ?_⟩
  simp [Store.file, Dinode.bytes, List.getD_eq_getElem?_getD, hx]

theorem file_eq {l : List UInt8} (hlen : (s.dinodes n).size = l.length)
    (h : ∀ x, x < l.length → Files.content s.dinodes s.blocks n x = some (l.getD x 0)) : s.file n = l := by
  unfold Store.file
  rw [hlen]
  exact bytes_of_content h

theorem drop_take_bytes (blocks : Nat → Block) (d : Dinode) {m size : Nat} :
    ((d.bytes blocks 0 size).drop off).take m = d.bytes blocks off (min m (size - off)) := by
  apply List.ext_getElem
  · simp [Dinode.bytes]
  · intro x _ _
    simp [Dinode.bytes]

theorem Written.file (hw : Written ip off src s t) (h : Sound sb s) (hlock : (s.icache ip).locked = true)
    (hdev : (s.icache ip).copy.type ≠ tDev) (hoff : off ≤ (s.file (s.icache ip).inum).length) :
    t.file (s.icache ip).inum = splice (s.file (s.icache ip).inum) off src := by
  obtain ⟨-, hcopy, htype, -, -⟩ := h.lock hlock
  rw [hcopy] at htype hdev
  refine file_eq ?_ fun x hx => ?_
  · rw [hw.size, length_splice hoff, length_file, hcopy]
  rw [length_splice hoff] at hx
  rw [getD_splice hoff]
  split
  · rename_i hin
    exact hw.hit x hin.1 hin.2
  · exact (hw.rest _ x fun _ => by omega).some (h.content htype hdev (by omega))

theorem Written.other_file (hw : Written ip off src s t) (h : Sound sb s) (hn : n ≠ (s.icache ip).inum)
    (htype : (s.dinodes n).type ≠ 0) (hdev : (s.dinodes n).type ≠ tDev) : t.file n = s.file n := by
  refine file_eq ?_ fun x hx => ?_
  · rw [hw.other n hn, length_file]
  · exact (hw.rest n x fun hc => absurd hc hn).some (h.content htype hdev hx)

/-- The sum of two `uint`s wraps around exactly when it is smaller than the first of them. -/
theorem wraps_iff {m : Nat} (hoff : off < 2 ^ 32) (hm : m < 2 ^ 32) : (off + m) % uintMod < off ↔ 2 ^ 32 ≤ off + m := by
  unfold uintMod
  omega

/-- A locked inode that is no device holds an array of bytes: `writei` refuses a range that begins
behind its end, overflows or is too long for a file, and otherwise, with blocks for the entries
that lack one, replaces these bytes and no others; `readi` returns the bytes of the range that
exist, and changes nothing. -/
theorem inode_byte_array (hwide : sb.size ≤ 2 ^ 32) (h : Sound sb s) (hlock : (s.icache ip).locked = true)
    (hdev : (s.icache ip).copy.type ≠ tDev) (hoff : off < 2 ^ 32) :
    (∀ src : List UInt8, src.length < 2 ^ 32 →
      if (s.file (s.icache ip).inum).length < off ∨ 2 ^ 32 ≤ off + src.length ∨
          maxFile * bSize < off + src.length then
        writei sb ip src off s = .ok (none, s)
      else s.lacks ip (touched off src.length) ≤ s.free sb →
        ∃ t, writei sb ip src off s = .ok (some src.length, t) ∧ Sound sb t ∧
          t.file (s.icache ip).inum = splice (s.file (s.icache ip).inum) off src ∧
          ∀ n, n ≠ (s.icache ip).inum → (s.dinodes n).type ≠ 0 → (s.dinodes n).type ≠ tDev →
            t.dinodes n = s.dinodes n ∧ t.file n = s.file n) ∧
    ∀ (m : Nat) (input : List UInt8), m < 2 ^ 32 → readi sb ip off m input s =
      .ok (if (s.file (s.icache ip).inum).length < off ∨ 2 ^ 32 ≤ off + m then none
        else some (((s.file (s.icache ip).inum).drop off).take m), s) := by
  obtain ⟨-, hcopy, htype, -, -⟩ := h.lock hlock
  have hlen : (s.file (s.icache ip).inum).length = (s.icache ip).copy.size := by
    rw [length_file, hcopy]
  constructor
  · intro src hsrc
    have haccepts : (s.icache ip).copy.Accepts off src.length ↔
        ¬ ((s.file (s.icache ip).inum).length < off ∨ 2 ^ 32 ≤ off + src.length ∨
          maxFile * bSize < off + src.length) := by
      unfold Dinode.Accepts
      rw [wraps_iff hoff hsrc, hlen]
      omega
    split
    · rename_i hout
      have hends : Ends (writei sb ip src off) s _ _ := writei_refuses hdev (haccepts.not.mpr (not_not.mpr hout))
      obtain ⟨r, u, hok, hr, hu⟩ := hends.ok fun _ => id
      rw [hok, hr, hu]
    rename_i hin
    intro hroom
    have hacc := haccepts.mpr hin
    obtain ⟨_, t, hok, rfl, hsound, hw⟩ := (writei_ends hwide h hlock hdev hacc).ok
      fun e he => absurd (he.2 _ subset_rfl) (Nat.not_lt.mpr hroom)
    refine ⟨t, hok, hsound, hw.file h hlock hdev (by rw [hlen]; exact hacc.1), fun n hn htype hnd => ?_⟩
    exact ⟨hw.other n hn, hw.other_file h hn htype hnd⟩
  · intro m input hm
    have hfilled : Filled s.blocks (s.icache ip).copy (s.icache ip).copy.size := by
      rw [hcopy] at htype hdev ⊢
      exact h.filled _ htype hdev
    have hends : Ends (readi sb ip off m input) s _ _ := readi_ends hdev hfilled
    obtain ⟨r, u, hok, hu, hr⟩ := hends.ok fun _ => id
    have hbytes : (s.icache ip).copy.bytes s.blocks off (min m ((s.icache ip).copy.size - off)) =
        ((s.file (s.icache ip).inum).drop off).take m := by
      unfold Store.file
      rw [drop_take_bytes, hcopy]
    rw [hok, hu, hr, hlen, hbytes]
    simp only [wraps_iff hoff hm, gt_iff_lt]

/-- The root directory of the empty disk, locked. -/
def lockedRoot : Store := emptyDisk.store.set 0 fun x => { x with locked := true }

theorem lockedRoot_sound : Sound ⟨20, 10, 3⟩ lockedRoot :=
  (ilock_sound (emptyDisk_sound (by decide)) 0).returned (a := ()) (t := lockedRoot) rfl

/-- Two bytes are written to it, and then it holds these. -/
theorem inode_byte_array_locked : lockedRoot.file rootIno = [] ∧
    readi ⟨20, 10, 3⟩ 0 0 5 [] lockedRoot = .ok (some [], lockedRoot) ∧
    ∃ t, writei ⟨20, 10, 3⟩ 0 [7, 8] 0 lockedRoot = .ok (some 2, t) ∧ t.file rootIno = [7, 8] := by
  obtain ⟨hwrite, hread⟩ := inode_byte_array (by decide) lockedRoot_sound
    (rfl : (lockedRoot.icache 0).locked = true) (by decide) (by decide : 0 < 2 ^ 32)
  have hfile : lockedRoot.file rootIno = [] := rfl
  have hread := hread 5 [] (by decide)
  have hwrite := hwrite [7, 8] (by decide)
  rw [if_neg (by decide)] at hwrite
  obtain ⟨t, hok, -, hnew, -⟩ := hwrite (by decide +kernel)
  exact ⟨hfile, hread, t, hok, hnew⟩

end Xv6.Files
