import Mathlib.Algebra.Group.Int.Defs
import Mathlib.Algebra.Group.Nat.Defs

/-! # Little-endian words in byte blocks

A block is its bytes. `word` reads four of them as an unsigned 32-bit number and
`setWord` writes them; the two laws say that a write is read back and that it leaves
every disjoint word alone.
-/

namespace Xv6.Lib

abbrev Bytes := Nat → UInt8

namespace Bytes

def word (b : Bytes) (off : Nat) : Nat :=
  (b off).toNat + 256 * (b (off + 1)).toNat + 256 ^ 2 * (b (off + 2)).toNat +
    256 ^ 3 * (b (off + 3)).toNat

/-- The four bytes of a 32-bit word, written at a byte offset. -/
def setWord (b : Bytes) (off v : Nat) : Bytes := fun i =>
  if off ≤ i ∧ i < off + 4 then UInt8.ofNat (v / 256 ^ (i - off)) else b i

theorem setWord_at (b : Bytes) (off v k : Nat) (hk : k < 4) :
    (b.setWord off v (off + k)).toNat = v / 256 ^ k % 256 := by
  have hin : off ≤ off + k ∧ off + k < off + 4 := ⟨by omega, by omega⟩
  rw [setWord, if_pos hin, Nat.add_sub_cancel_left]
  exact UInt8.toNat_ofNat'

theorem setWord_other (b : Bytes) (off v i : Nat) (hi : i < off ∨ off + 4 ≤ i) :
    b.setWord off v i = b i := by
  rw [setWord, if_neg (by omega)]

@[simp] theorem word_setWord (b : Bytes) (off v : Nat) :
    (b.setWord off v).word off = v % 2 ^ 32 := by
  have h0 := setWord_at b off v 0 (by omega)
  have h1 := setWord_at b off v 1 (by omega)
  have h2 := setWord_at b off v 2 (by omega)
  have h3 := setWord_at b off v 3 (by omega)
  simp only [Nat.add_zero] at h0
  unfold word
  rw [h0, h1, h2, h3]
  omega

theorem word_setWord_disjoint (b : Bytes) {off off' : Nat} (v : Nat)
    (h : off' + 4 ≤ off ∨ off + 4 ≤ off') : (b.setWord off v).word off' = b.word off' := by
  unfold word
  rw [setWord_other b off v off' (by omega), setWord_other b off v (off' + 1) (by omega),
    setWord_other b off v (off' + 2) (by omega), setWord_other b off v (off' + 3) (by omega)]

end Bytes

def toInt32 (w : Nat) : Int :=
  if w < 2 ^ 31 then w else (w : Int) - 2 ^ 32

def ofInt32 (i : Int) : Nat :=
  (i % 2 ^ 32).toNat

theorem ofInt32_lt (i : Int) : ofInt32 i < 2 ^ 32 := by
  unfold ofInt32
  omega

theorem toInt32_ofInt32 {i : Int} (hlo : -2 ^ 31 ≤ i) (hhi : i < 2 ^ 31) :
    toInt32 (ofInt32 i) = i := by
  unfold toInt32 ofInt32
  split <;> omega

end Xv6.Lib
