import Mathlib.Computability.Language
import Xv6.CString

/-! # The patterns of `grep`

The matcher of `grep.c` decides the language of its pattern. Pattern and text are without `NUL`.
-/

namespace Xv6.Grep

open Computability

abbrev star : UInt8 := 42
abbrev dot : UInt8 := 46
abbrev dollar : UInt8 := 36
abbrev caret : UInt8 := 94

/-- `matchstar`, where `here` is `matchhere` with the rest of the pattern. -/
def matchstar (c : UInt8) (here : CString → Bool) : CString → Bool
  | [] => here []
  | t :: text => here (t :: text) || (t = c || c = dot) && matchstar c here text

def matchhere : CString → CString → Bool
  | [], _ => true
  | [c], text => if c = dollar then text = [] else text.head?.any fun t => c = dot || c = t
  | c :: d :: re, text =>
    if d = star then matchstar c (matchhere re) text
    else match text with
      | [] => false
      | t :: text => (c = dot || c = t) && matchhere (d :: re) text

/-- `match`. -/
def matchText (re text : CString) : Bool :=
  if re.head? = some caret then matchhere re.tail text else text.tails.any (matchhere re)

/-- The texts of one character that `c` stands for. -/
def char (c : UInt8) : Language UInt8 := { x | ∃ t, (c = dot ∨ c = t) ∧ x = [t] }

/-- The texts that begin with a match of the pattern. -/
def language : CString → Language UInt8
  | [] => ⊤
  | [c] => if c = dollar then 1 else char c * ⊤
  | c :: d :: re => if d = star then (char c)∗ * language re else char c * language (d :: re)

variable {c t : UInt8} {text re : CString} {L : Language UInt8}

theorem mem_char_mul : text ∈ char c * L ↔ ∃ t x, text = t :: x ∧ (c = dot ∨ c = t) ∧ x ∈ L := by
  constructor
  · rintro ⟨_, ⟨t, ht, rfl⟩, x, hx, rfl⟩
    exact ⟨t, x, rfl, ht, hx⟩
  · rintro ⟨t, x, rfl, ht, hx⟩
    exact ⟨[t], ⟨t, ht, rfl⟩, x, hx, rfl⟩

theorem mem_star_mul {l : Language UInt8} : text ∈ l∗ * L ↔ text ∈ L ∨ text ∈ l * (l∗ * L) := by
  rw [← mul_assoc, ← Language.mem_add, ← one_add_mul, Language.one_add_self_mul_kstar_eq_kstar]

theorem matchstar_iff {here : CString → Bool} (h : ∀ x, here x = true ↔ x ∈ L) :
    matchstar c here text = true ↔ text ∈ (char c)∗ * L := by
  induction text with
  | nil =>
    rw [mem_star_mul, mem_char_mul]
    simp [matchstar, h]
  | cons t text ih =>
    rw [mem_star_mul, mem_char_mul, ← h, matchstar]
    grind

theorem matchhere_iff : matchhere re text = true ↔ text ∈ language re := by
  fun_induction language re generalizing text with
  | case1 => exact iff_of_true rfl trivial
  | case2 => simp [matchhere]
  | case3 c hc =>
    have htop : ∀ x, x ∈ (⊤ : Language UInt8) := fun _ => trivial
    cases text <;> simp [matchhere, hc, mem_char_mul, htop]
  | case4 c re ih =>
    simp only [matchhere, if_true]
    exact matchstar_iff fun _ => ih
  | case5 c d re hd ih => cases text <;> simp [matchhere, hd, mem_char_mul, ih]

/-- `match` finds the texts that contain a match, and with `^` those that begin with one. -/
theorem matchText_iff (re text : CString) : matchText re text = true ↔
    text ∈ if re.head? = some caret then language re.tail else ⊤ * language re := by
  unfold matchText
  split
  · exact matchhere_iff
  · simp only [List.any_eq_true, List.mem_tails, matchhere_iff]
    constructor
    · rintro ⟨x, ⟨y, rfl⟩, hx⟩
      exact ⟨y, trivial, x, hx, rfl⟩
    · rintro ⟨y, -, x, hx, rfl⟩
      exact ⟨x, ⟨y, rfl⟩, hx⟩

end Xv6.Grep
