import Xv6.Files.BlockRuns

/-! # Reading a file by its name in the root directory

Where a directory has its blocks, the loop of `dirlookup` reads its bytes and nothing else, so it
finds what a scan of the bytes finds.
-/

namespace Xv6.Files

open Lib
open Fs (Slot tDir tDev direntSize direntInum direntName namecmp scanDirents)

variable {sb : Superblock} {s : Store} {ip : Slot}

variable {off : Nat}

theorem length_bytes (blocks : Nat → Block) (d : Dinode) (off n : Nat) : (d.bytes blocks off n).length = n := by
  unfold Dinode.bytes
  rw [List.length_map, List.length_range]

theorem readDirent_ends (hdev : (s.icache ip).copy.type ≠ tDev)
    (hfilled : Filled s.blocks (s.icache ip).copy (s.icache ip).copy.size) (msg : String)
    (hoff : off + direntSize ≤ (s.icache ip).copy.size) : Ends (readDirent sb msg ip off) s (fun r t => t = s ∧
      r = (s.icache ip).copy.bytes s.blocks off direntSize) fun _ => False := by
  unfold readDirent
  refine (readi_ends hdev hfilled).bind ?_
  intro r t hr
  obtain ⟨rfl, hr⟩ := hr
  have hle := hfilled.1
  have hin : ¬ (off > (t.icache ip).copy.size ∨ (off + direntSize) % uintMod < off) := by
    have hsmall : maxFile * bSize < uintMod := by decide
    rw [Nat.mod_eq_of_lt (by omega)]
    omega
  have hmin : min direntSize ((t.icache ip).copy.size - off) = direntSize := by omega
  rw [if_neg hin, hmin] at hr
  subst hr
  dsimp only
  rw [if_pos (length_bytes ..)]
  exact ⟨rfl, rfl⟩

theorem lookupLoop_ends (hdev : (s.icache ip).copy.type ≠ tDev)
    (hfilled : Filled s.blocks (s.icache ip).copy (s.icache ip).copy.size) (name : CString) (fuel : Nat)
    (hwhole : direntSize ∣ (s.icache ip).copy.size - off) :
    Ends (lookupLoop sb ip name fuel off) s (fun r t => t = s ∧ scanDirents name fuel
      ((s.icache ip).copy.bytes s.blocks off ((s.icache ip).copy.size - off)) off = .ok r)
      fun _ => False := by
  induction fuel generalizing off with
  | zero => exact ⟨rfl, rfl⟩
  | succ fuel ih =>
    unfold lookupLoop
    rw [ends_get_bind]
    simp only [scanDirents]
    refine ends_ite (fun hlt => ?_) fun hge => ?_
    · have hpos : 0 < (s.icache ip).copy.size - off := by omega
      have hentry := Nat.le_of_dvd hpos hwhole
      have hsplit : (s.icache ip).copy.bytes s.blocks off ((s.icache ip).copy.size - off) =
          (s.icache ip).copy.bytes s.blocks off direntSize ++
            (s.icache ip).copy.bytes s.blocks (off + direntSize)
              ((s.icache ip).copy.size - (off + direntSize)) := by
        rw [← bytes_add]
        congr 1
        omega
      rw [hsplit]
      have hlen := length_bytes s.blocks (s.icache ip).copy off direntSize
      generalize hde : (s.icache ip).copy.bytes s.blocks off direntSize = de at hlen ⊢
      have hwhole' : direntSize ∣ (s.icache ip).copy.size - (off + direntSize) := by
        rw [← Nat.sub_sub]
        exact Nat.dvd_sub hwhole (Nat.dvd_refl _)
      have hrest := ih hwhole'
      generalize (s.icache ip).copy.bytes s.blocks (off + direntSize)
        ((s.icache ip).copy.size - (off + direntSize)) = rest at hrest ⊢
      refine (readDirent_ends hdev hfilled "dirlookup read" (by omega)).bind ?_
      intro r t hr
      obtain ⟨rfl, rfl⟩ := hr
      rw [hde]
      -- both read the number and the name of the entry from its sixteen bytes
      have hne : de ++ rest ≠ [] := by
        intro hnil
        rw [(List.append_eq_nil_iff.mp hnil).1] at hlen
        cases hlen
      have hshort : ¬ (de ++ rest).length < direntSize := by
        rw [List.length_append]
        omega
      have hinum : direntInum (de ++ rest) = direntInum de := by
        unfold direntInum ushortAt
        rw [List.getD_append _ _ _ _ (by rw [hlen]; decide), List.getD_append _ _ _ _ (by rw [hlen]; decide)]
      have hname : direntName (de ++ rest) = direntName de := by
        unfold direntName
        rw [← hlen, List.take_left, List.take_length]
      have hdrop : (de ++ rest).drop direntSize = rest := by rw [← hlen, List.drop_left]
      rw [if_neg hne, if_neg hshort, hinum, hname, hdrop]
      by_cases hzero : direntInum de = 0
      · rw [if_pos hzero, if_pos hzero]
        exact hrest
      rw [if_neg hzero, if_neg hzero]
      by_cases hcmp : namecmp name (direntName de) = 0
      · rw [if_pos hcmp, if_pos hcmp]
        exact ⟨rfl, rfl⟩
      · rw [if_neg hcmp, if_neg hcmp]
        exact hrest
    · have hzero : (s.icache ip).copy.size - off = 0 := by omega
      refine ⟨rfl, ?_⟩
      rw [hzero]
      rfl

/-! ## One file -/

/-- A reference to an inode, and the lock on it. -/
def lockInode (inum : Nat) : Code Store Slot := do
  let ip ← iget rootDev inum
  ilock ip
  return ip

/-- `readi` of all bytes of the file that was found in `dp`. -/
def readFound (sb : Superblock) (dp : Slot) : Option (Slot × Nat) → Code Store (Option (List UInt8))
  | none => pure none
  | some (ip, _) => do
    iunlock dp
    ilock ip
    readi sb ip 0 ((← get).icache ip).copy.size []

/-- `dirlookup` of a name in the root directory, and then `readi` of the file that is found. -/
def fetch (sb : Superblock) (name : CString) : Code Store (Option (List UInt8)) := do
  let dp ← lockInode rootIno
  readFound sb dp (← dirlookup sb dp name)

def SameDisk (s t : Store) : Prop := t.dinodes = s.dinodes ∧ t.bitmap = s.bitmap ∧ t.blocks = s.blocks

theorem SameDisk.trans {s t u : Store} (h : SameDisk s t) (h' : SameDisk t u) : SameDisk s u :=
  ⟨h'.1.trans h.1, h'.2.1.trans h.2.1, h'.2.2.trans h.2.2⟩

theorem iget_goes (h : Sound sb s) {j : Slot} (hroom : (s.icache j).ref = 0) (n : Nat) :
    Ends (iget rootDev n) s (fun ip t => Sound sb t ∧ SameDisk s t ∧ 0 < (t.icache ip).ref ∧
      (t.icache ip).inum = n ∧ (t.icache ip).locked = (s.icache ip).locked ∧
      ∀ i, i ≠ ip → t.icache i = s.icache i) fun _ => False := by
  refine ((iget_ends rootDev n s).and (iget_sound h n)).mono ?_ fun _ he => he.1.2 j hroom
  rintro ip t ⟨⟨hother, hdinodes, hblocks, hbitmap, -, hinum, href, hlocked, hcase⟩, ht⟩
  refine ⟨ht, ⟨hdinodes, hbitmap, hblocks⟩, ?_, hinum, hlocked, hother⟩
  obtain ⟨hz, -⟩ | ⟨hp, -⟩ := hcase
  · omega
  · omega

theorem ilock_goes (h : Sound sb s) (hpos : 0 < (s.icache ip).ref) (hfree : (s.icache ip).locked = false)
    (htype : (s.dinodes (s.icache ip).inum).type ≠ 0) :
    Ends (ilock ip) s (fun _ t => Sound sb t ∧ SameDisk s t ∧ Touched ip s t (s.icache ip).ref true)
      fun _ => False := by
  refine ((ilock_ends ip s).and (ilock_sound h ip)).mono ?_ fun _ he => htype (he.1.2 hpos hfree)
  rintro _ _ ⟨⟨-, -, d, -, rfl⟩, ht⟩
  exact ⟨ht, ⟨rfl, rfl, rfl⟩, .set ip s _ rfl rfl⟩

theorem iunlock_goes (h : Sound sb s) (hpos : 0 < (s.icache ip).ref) (hlock : (s.icache ip).locked = true) :
    Ends (iunlock ip) s (fun _ t => Sound sb t ∧ SameDisk s t ∧ Touched ip s t (s.icache ip).ref false)
      fun _ => False := by
  refine ((iunlock_ends ip s).and (iunlock_sound h ip)).mono ?_ ?_
  · rintro _ _ ⟨⟨-, rfl⟩, ht⟩
    exact ⟨ht, ⟨rfl, rfl, rfl⟩, .set ip s _ rfl rfl⟩
  · rintro _ ⟨⟨-, hbad⟩, -⟩
    rw [hlock] at hbad
    exact absurd hbad (by simp; omega)

theorem lockInode_ends (h : Sound sb s) {j : Slot} (hroom : (s.icache j).ref = 0) {n : Nat}
    (hunlocked : ∀ i, (s.icache i).locked = false) (htype : (s.dinodes n).type ≠ 0) :
    Ends (lockInode n) s (fun ip t => Sound sb t ∧
      SameDisk s t ∧ (t.icache ip).locked = true ∧ (t.icache ip).inum = n ∧
      ∀ i, i ≠ ip → t.icache i = s.icache i) fun _ => False := by
  refine (iget_goes h hroom n).bind ?_
  rintro ip t ⟨ht, hdisk, hpos, hinum, hlocked, hother⟩
  have htype' : (t.dinodes (t.icache ip).inum).type ≠ 0 := by
    rw [hinum, hdisk.1]
    exact htype
  refine (ilock_goes ht hpos (hlocked.trans (hunlocked ip)) htype').bind ?_
  rintro _ u ⟨hu, hsame, htouched⟩
  refine ⟨hu, hdisk.trans hsame, htouched.locked, htouched.inum.trans hinum, fun i hi => ?_⟩
  rw [htouched.other i hi, hother i hi]

/-- A file is found under its name, and its bytes are read. -/
theorem fetch_ends (h : Sound sb s) (hempty : ∀ i, (s.icache i).ref = 0) {name : CString} {n : Nat}
    (hroot : (s.dinodes rootIno).type = tDir) (hwhole : direntSize ∣ (s.dinodes rootIno).size)
    (hscan : scanDirents name ((s.dinodes rootIno).size + 1)
      ((s.dinodes rootIno).bytes s.blocks 0 (s.dinodes rootIno).size) 0 = .ok (some (n, off)))
    (htype : (s.dinodes n).type ≠ 0) (hdev : (s.dinodes n).type ≠ tDev) :
    Ends (fetch sb name) s (fun r _ => r = some ((s.dinodes n).bytes s.blocks 0 (s.dinodes n).size))
      fun _ => False := by
  have hunlocked : ∀ i, (s.icache i).locked = false := by
    intro i
    cases hl : (s.icache i).locked with
    | false => rfl
    | true =>
      have := (h.coherent.locked i hl).1
      rw [hempty i] at this
      omega
  have hroot0 : (s.dinodes rootIno).type ≠ 0 := by
    rw [hroot]
    decide
  unfold fetch
  refine (lockInode_ends h (hempty 0) hunlocked hroot0).bind ?_
  intro dp t hstart
  obtain ⟨ht, hsame, hlock, hinum, hother⟩ := hstart
  obtain ⟨hpos, hcopy, -, -, -⟩ := ht.lock hlock
  rw [hinum, hsame.1] at hcopy
  have hdir : (t.icache dp).copy.type = tDir := by
    rw [hcopy]
    exact hroot
  have hdirdev : (t.icache dp).copy.type ≠ tDev := by
    rw [hdir]
    decide
  have hfilled : Filled t.blocks (t.icache dp).copy (t.icache dp).copy.size := by
    rw [hcopy, hsame.2.2]
    rw [hcopy] at hdirdev
    exact h.filled _ hroot0 hdirdev
  have hfree : (t.icache (if dp = 0 then 1 else 0)).ref = 0 := by
    have hne : (if dp = 0 then 1 else 0) ≠ dp := by
      split
      · rename_i hz
        rw [hz]
        decide
      · rename_i hz
        exact Ne.symm hz
    rw [hother _ hne]
    exact hempty _
  -- the entry is found, and a reference to its inode is taken
  have hlookup : Ends (dirlookup sb dp name) t (fun r u => Sound sb u ∧ SameDisk t u ∧
      ∃ ip off, r = some (ip, off) ∧ 0 < (u.icache ip).ref ∧ (u.icache ip).inum = n ∧
        (u.icache ip).locked = (t.icache ip).locked ∧ 0 < (u.icache dp).ref ∧
        (u.icache dp).locked = true) fun _ => False := by
    unfold dirlookup
    rw [ends_get_bind]
    refine ends_ite (fun hne => absurd hdir hne) fun _ => ?_
    refine Ends.bind (lookupLoop_ends hdirdev hfilled name _ (by rw [hcopy]; exact hwhole)) ?_
    intro r u hr
    obtain ⟨rfl, hr⟩ := hr
    rw [hcopy, hsame.2.2, Nat.sub_zero, hscan] at hr
    cases hr
    rw [ht.coherent.dev dp hpos]
    refine (iget_goes ht hfree n).bind ?_
    rintro ip v ⟨hv, hdisk, hpos', hinum', hlocked, hother'⟩
    have hkept : 0 < (v.icache dp).ref ∧ (v.icache dp).locked = true := by
      by_cases hip : dp = ip
      · rw [← hip] at hpos' hlocked
        exact ⟨hpos', hlocked.trans hlock⟩
      · rw [hother' dp hip]
        exact ⟨hpos, hlock⟩
    exact ⟨hv, hdisk, ip, off, rfl, hpos', hinum', hlocked, hkept.1, hkept.2⟩
  refine hlookup.bind ?_
  intro r u hfound
  obtain ⟨hu, hsame', ip, off', rfl, hpos', hinum', hlocked, hdpos, hdlock⟩ := hfound
  unfold readFound
  refine (iunlock_goes hu hdpos hdlock).bind ?_
  rintro _ v ⟨hv, hsame'', htouched⟩
  have hdisk := (hsame.trans hsame').trans hsame''
  have hready : 0 < (v.icache ip).ref ∧ (v.icache ip).locked = false ∧ (v.icache ip).inum = n := by
    by_cases hip : ip = dp
    · subst hip
      exact ⟨by rw [htouched.ref]; exact hpos', htouched.locked, htouched.inum.trans hinum'⟩
    · rw [htouched.other ip hip]
      refine ⟨hpos', ?_, hinum'⟩
      rw [hlocked, hother ip hip]
      exact hunlocked ip
  have htype' : (v.dinodes (v.icache ip).inum).type ≠ 0 := by
    rw [hready.2.2, hdisk.1]
    exact htype
  refine (ilock_goes hv hready.1 hready.2.1 htype').bind ?_
  rintro _ w ⟨hw, hsame3, htouched'⟩
  have hdisk := hdisk.trans hsame3
  obtain ⟨-, hcopy', -, -, -⟩ := hw.lock htouched'.locked
  rw [htouched'.inum, hready.2.2, hdisk.1] at hcopy'
  rw [ends_get_bind]
  have hfile : Filled w.blocks (w.icache ip).copy (w.icache ip).copy.size := by
    rw [hcopy', hdisk.2.2]
    exact h.filled n htype hdev
  refine (readi_ends (by rw [hcopy']; exact hdev) hfile).imp ?_
  intro r x hr
  rw [hr.2, if_neg (by simp), Nat.sub_zero, Nat.min_self, hcopy', hdisk.2.2]

end Xv6.Files
