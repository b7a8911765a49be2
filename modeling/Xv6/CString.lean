import Xv6.Params

/-! # C strings

A string is the list of its bytes; what lies behind the list reads as `NUL`, and a `NUL`
inside it ends the string as in memory.
-/

namespace Xv6

abbrev CString := List UInt8

/-- The `ushort` that lies at an offset. -/
def ushortAt (bytes : List UInt8) (off : Nat) : Nat :=
  (bytes.getD off 0).toNat + 256 * (bytes.getD (off + 1) 0).toNat

/-- The `uint` that lies at an offset. -/
def uintAt (bytes : List UInt8) (off : Nat) : Nat := ushortAt bytes off + 65536 * ushortAt bytes (off + 2)

def strncmp (p q : CString) : Nat → Int
  | 0 => 0
  | n + 1 =>
    if p.headD 0 ≠ 0 ∧ p.headD 0 = q.headD 0 then strncmp p.tail q.tail n
    else (p.headD 0).toNat - (q.headD 0).toNat

/-- The characters of a string before its `NUL`, at most `n` of them. -/
def chars : Nat → CString → List UInt8
  | 0, _ => []
  | n + 1, p => if p.headD 0 = 0 then [] else p.headD 0 :: chars n p.tail

theorem strncmp_eq_zero_iff (p q : CString) (n : Nat) :
    strncmp p q n = 0 ↔ chars n p = chars n q := by
  induction n generalizing p q with
  | zero => simp [strncmp, chars]
  | succ n ih =>
    have htail := ih p.tail q.tail
    simp only [strncmp, chars]
    generalize p.headD 0 = a, q.headD 0 = b
    have hdiff : ((a.toNat : Int) - b.toNat = 0) ↔ a = b := by
      rw [← UInt8.toNat_inj]
      omega
    by_cases hab : a = b
    · subst hab
      by_cases ha : a = 0
      · simp [ha]
      · simpa [ha] using htail
    · rw [if_neg fun h => hab h.2, hdiff]
      by_cases ha : a = 0 <;> by_cases hb : b = 0 <;> simp_all

theorem chars_append_nul (n k : Nat) (p : CString) :
    chars n (p ++ List.replicate k 0) = chars n p := by
  induction n generalizing p with
  | zero => rfl
  | succ n ih =>
    cases p with
    | nil => cases k <;> rfl
    | cons c p =>
      show (if c = 0 then [] else c :: chars n (p ++ List.replicate k 0)) =
        if c = 0 then [] else c :: chars n p
      rw [ih]

theorem chars_take (n : Nat) (p : CString) : chars n (p.take n) = chars n p := by
  induction n generalizing p with
  | zero => rfl
  | succ n ih =>
    cases p with
    | nil => rfl
    | cons c p =>
      show (if c = 0 then [] else c :: chars n (p.take n)) = if c = 0 then [] else c :: chars n p
      rw [ih]

theorem length_chars_le (n : Nat) (p : CString) : (chars n p).length ≤ n := by
  induction n generalizing p with
  | zero => exact Nat.le_refl 0
  | succ n ih =>
    unfold chars
    split
    · exact Nat.zero_le _
    · exact Nat.succ_le_succ (ih _)

theorem chars_of_length_le {n : Nat} {p : CString} (hnul : 0 ∉ p) (hlen : p.length ≤ n) :
    chars n p = p := by
  induction n generalizing p with
  | zero => exact (List.length_eq_zero_iff.mp (Nat.le_zero.mp hlen)).symm
  | succ n ih =>
    cases p with
    | nil => rfl
    | cons c p =>
      rw [List.mem_cons, not_or] at hnul
      show (if c = 0 then [] else c :: chars n p) = c :: p
      rw [if_neg (Ne.symm hnul.1), ih hnul.2 (Nat.le_of_succ_le_succ hlen)]

theorem strncmp_take (p q : CString) (n : Nat) : strncmp (p.take n) q n = 0 ↔ strncmp p q n = 0 := by
  rw [strncmp_eq_zero_iff, strncmp_eq_zero_iff, chars_take]

theorem strncmp_comm (p q : CString) (n : Nat) : strncmp p q n = 0 ↔ strncmp q p n = 0 := by
  rw [strncmp_eq_zero_iff, strncmp_eq_zero_iff, eq_comm]

end Xv6
