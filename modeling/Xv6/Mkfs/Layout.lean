import Xv6.Files.Contents
import Xv6.Mkfs.Program

/-! # The layout on which `mkfs` and the kernel agree

An inode is read back as it was written, and writing one leaves the others alone; the super block
and the bits of the bitmap read as the numbers that were put there.
-/

namespace Xv6.Mkfs

open Lib
open Files (Block Dinode short)

variable {d : Dinode} {slot : Nat}

/-! ## Inodes in a sector -/

structure Fits (d : Dinode) : Prop where
  type : d.type < 2 ^ 16
  major : short d.major = d.major
  minor : short d.minor = d.minor
  nlink : short d.nlink = d.nlink
  size : d.size < 2 ^ 32
  addrs : ∀ i, d.addrs i < 2 ^ 32

theorem Fits.withSize (h : Fits d) {n : Nat} (hn : n < 2 ^ 32) : Fits { d with size := n } := by
  obtain ⟨htype, hmajor, hminor, hnlink, -, haddrs⟩ := h
  constructor
  · exact htype
  · exact hmajor
  · exact hminor
  · exact hnlink
  · exact hn
  · exact haddrs

theorem setDinode_inside (b : Block) (slot : Nat) (d : Dinode) {r : Nat} (hr : r < dinodeSize) :
    setDinode b slot d (dinodeSize * slot + r) = dinodeByte d r := by
  have hdiv : (dinodeSize * slot + r) / dinodeSize = slot := by
    unfold dinodeSize at hr ⊢
    omega
  have hmod : (dinodeSize * slot + r) % dinodeSize = r := by
    unfold dinodeSize at hr ⊢
    omega
  unfold setDinode
  rw [hdiv, hmod, if_pos rfl]

theorem setDinode_outside (b : Block) {slot' : Nat} (d : Dinode) (h : slot' ≠ slot) {r : Nat}
    (hr : r < dinodeSize) : setDinode b slot d (dinodeSize * slot' + r) = b (dinodeSize * slot' + r) := by
  have hdiv : (dinodeSize * slot' + r) / dinodeSize = slot' := by
    unfold dinodeSize at hr ⊢
    omega
  unfold setDinode
  rw [hdiv, if_neg h]

theorem ushort_slot (b : Block) {j : Nat} : ushort b (32 * slot + j) =
    (b (dinodeSize * slot + 2 * j)).toNat + 256 * (b (dinodeSize * slot + (2 * j + 1))).toNat := by
  have hplace : 2 * (32 * slot + j) = dinodeSize * slot + 2 * j := by
    unfold dinodeSize
    omega
  rw [ushort, hplace, Nat.add_assoc]

theorem uint_slot (b : Block) {w : Nat} : b.uint (16 * slot + 2 + w) =
    (b (dinodeSize * slot + (8 + 4 * w))).toNat + 256 * (b (dinodeSize * slot + (8 + 4 * w + 1))).toNat +
      256 ^ 2 * (b (dinodeSize * slot + (8 + 4 * w + 2))).toNat +
      256 ^ 3 * (b (dinodeSize * slot + (8 + 4 * w + 3))).toNat := by
  have hplace : 4 * (16 * slot + 2 + w) = dinodeSize * slot + (8 + 4 * w) := by
    unfold dinodeSize
    omega
  rw [Block.uint, hplace]
  simp only [Nat.add_assoc]

theorem ushort_setDinode (b : Block) (slot : Nat) (d : Dinode) {j : Nat} (hj : j < 4) :
    ushort (setDinode b slot d) (32 * slot + j) = (half d j % 2 ^ 16).toNat := by
  have hbyte : ∀ r, r < 2 → (setDinode b slot d (dinodeSize * slot + (2 * j + r))).toNat =
      (half d j % 2 ^ 16).toNat / 256 ^ r % 256 := by
    intro r hr
    rw [setDinode_inside b slot d (by unfold dinodeSize; omega), dinodeByte, if_pos (by omega),
      show (2 * j + r) / 2 = j by omega, show (2 * j + r) % 2 = r by omega, UInt8.toNat_ofNat']
  have h0 := hbyte 0 (by omega)
  rw [Nat.add_zero] at h0
  rw [ushort_slot, h0, hbyte 1 (by omega)]
  omega

theorem uint_setDinode (b : Block) (slot : Nat) {w : Nat} (hw : w < nDirect + 2) (hfits : word d w < 2 ^ 32) :
    (setDinode b slot d).uint (16 * slot + 2 + w) = word d w := by
  have hbyte : ∀ r, r < 4 → (setDinode b slot d (dinodeSize * slot + (8 + 4 * w + r))).toNat =
      word d w / 256 ^ r % 256 := by
    intro r hr
    rw [setDinode_inside b slot d (by unfold nDirect at hw; unfold dinodeSize; omega), dinodeByte,
      if_neg (by omega), show (8 + 4 * w + r - 8) / 4 = w by omega, show (8 + 4 * w + r) % 4 = r by omega,
      UInt8.toNat_ofNat']
  have h0 := hbyte 0 (by omega)
  rw [Nat.add_zero] at h0
  rw [uint_slot, h0, hbyte 1 (by omega), hbyte 2 (by omega), hbyte 3 (by omega)]
  omega

theorem short_toNat_emod {x : Int} (h : short x = x) : short ((x % 2 ^ 16).toNat : Int) = x := by
  have hpos := Int.emod_nonneg x (show (2 : Int) ^ 16 ≠ 0 by decide)
  unfold short at h ⊢
  rw [Int.toNat_of_nonneg hpos]
  have hmod : (x % 2 ^ 16).bmod (2 ^ 16) = x.bmod (2 ^ 16) := Int.emod_bmod x (2 ^ 16)
  rw [hmod, h]

theorem getDinode_setDinode (b : Block) (slot : Nat) (h : Fits d) :
    getDinode (setDinode b slot d) slot = d := by
  have htype : ((half d 0 % 2 ^ 16).toNat) = d.type := by
    show ((d.type : Int) % 2 ^ 16).toNat = d.type
    have := h.type
    omega
  have hsize : word d 0 = d.size := rfl
  have haddr : ∀ i : Fin (nDirect + 1), word d (i.val + 1) = d.addrs i := fun i => dif_pos i.isLt
  have haddrs : (fun i : Fin (nDirect + 1) => (setDinode b slot d).uint (16 * slot + 3 + i)) = d.addrs := by
    funext i
    have hplace : 16 * slot + 3 + i.val = 16 * slot + 2 + (i.val + 1) := by omega
    rw [hplace, uint_setDinode b slot (by omega) (by rw [haddr]; exact h.addrs i), haddr]
  have h0 := ushort_setDinode b slot d (j := 0) (by omega)
  have h1 := ushort_setDinode b slot d (j := 1) (by omega)
  have h2 := ushort_setDinode b slot d (j := 2) (by omega)
  have h3 := ushort_setDinode b slot d (j := 3) (by omega)
  have hs := uint_setDinode b slot (w := 0) (by omega) (by rw [hsize]; exact h.size)
  rw [Nat.add_zero] at h0 hs
  have hmajor : half d 1 = d.major := rfl
  have hminor : half d 2 = d.minor := rfl
  have hnlink : half d 3 = d.nlink := rfl
  unfold getDinode
  rw [h0, h1, h2, h3, hs, haddrs, htype, hsize, hmajor, hminor, hnlink, short_toNat_emod h.major,
    short_toNat_emod h.minor, short_toNat_emod h.nlink]

theorem getDinode_congr {b b' : Block}
    (h : ∀ r, r < dinodeSize → b' (dinodeSize * slot + r) = b (dinodeSize * slot + r)) :
    getDinode b' slot = getDinode b slot := by
  have hhalf : ∀ j, j < 4 → ushort b' (32 * slot + j) = ushort b (32 * slot + j) := by
    intro j hj
    unfold dinodeSize at h
    rw [ushort_slot, ushort_slot, dinodeSize, h _ (by omega), h _ (by omega)]
  have hword : ∀ w, w < nDirect + 2 → b'.uint (16 * slot + 2 + w) = b.uint (16 * slot + 2 + w) := by
    intro w hw
    unfold nDirect at hw
    unfold dinodeSize at h
    rw [uint_slot, uint_slot, dinodeSize, h _ (by omega), h _ (by omega), h _ (by omega), h _ (by omega)]
  have h0 := hhalf 0 (by omega)
  have hs := hword 0 (by omega)
  rw [Nat.add_zero] at h0 hs
  have haddrs : (fun i : Fin (nDirect + 1) => b'.uint (16 * slot + 3 + i)) =
      fun i : Fin (nDirect + 1) => b.uint (16 * slot + 3 + i) := by
    funext i
    have hplace : 16 * slot + 3 + i.val = 16 * slot + 2 + (i.val + 1) := by omega
    rw [hplace]
    exact hword _ (by omega)
  unfold getDinode
  rw [h0, hhalf 1 (by omega), hhalf 2 (by omega), hhalf 3 (by omega), hs, haddrs]

theorem getDinode_setDinode_of_ne (b : Block) {slot' : Nat} (d : Dinode) (h : slot' ≠ slot) :
    getDinode (setDinode b slot d) slot' = getDinode b slot' :=
  getDinode_congr fun _ hr => setDinode_outside b d h hr

theorem getDinode_zeroes : getDinode zeroes slot = Dinode.new 0 := by
  simp [getDinode, ushort, zeroes, Block.uint, Dinode.new, short]

/-! ## The super block and the bitmap -/

abbrev sb : Files.Superblock := ⟨fsSize, nInodes, bmapstart⟩

theorem readsb_superSector {sectors : Nat → Block} (h : sectors 1 = superSector) :
    readsb sectors = sb ∧ (sectors 1).uint 5 = inodestart := by
  have hsize : superSector.uint 0 = fsSize := by decide
  have hninodes : superSector.uint 2 = nInodes := by decide
  have hinodes : superSector.uint 5 = inodestart := by decide
  have hbmap : superSector.uint 6 = bmapstart := by decide
  unfold readsb
  rw [h, hsize, hninodes, hbmap]
  exact ⟨rfl, hinodes⟩

theorem testBit_bitmapSector (used b : Nat) :
    ((bitmapSector used (b / 8)).toNat).testBit (b % 8) = decide (b < used) := by
  unfold bitmapSector
  induction used with
  | zero => simp [zeroes]
  | succ used ih =>
    rw [List.range_succ, List.foldl_append, List.foldl_cons, List.foldl_nil]
    generalize (List.range used).foldl _ zeroes = buf at ih ⊢
    have hsplit : b < used + 1 ↔ b < used ∨ b = used := by omega
    by_cases hbyte : b / 8 = used / 8
    · rw [hbyte, Function.update_self, UInt8.toNat_ofNat']
      rw [hbyte] at ih
      rw [Nat.testBit_mod_two_pow, Nat.testBit_or, ih, Nat.testBit_two_pow]
      have hbit : (used % 8 = b % 8) ↔ b = used := by omega
      have hlt : b % 8 < 8 := Nat.mod_lt _ (by omega)
      simp only [hlt, decide_true, Bool.true_and, hbit]
      rw [decide_eq_decide.mpr hsplit, Bool.decide_or]
    · have hne : b ≠ used := by
        intro heq
        rw [heq] at hbyte
        exact hbyte rfl
      rw [Function.update_of_ne hbyte, ih]
      exact decide_eq_decide.mpr (by omega)

end Xv6.Mkfs
