/-! # Path walks in a tree of names

Nodes and names are arbitrary. A name may mean "here" or "up"; every other name is an
ordinary entry. A walk is confined to a root by staying there on "up". In a tree whose "here"
entries name the node itself and whose "up" entries name the one directory that lists it, a
confined walk never leaves the part of the tree below the root.
-/

namespace Xv6.Lib

structure NameTree (N A : Type) where
  isDir : N → Bool
  lookup : N → A → Option N
  isHere : A → Bool
  isUp : A → Bool

namespace NameTree

variable {N A : Type} [DecidableEq N]

/-- The nodes at or below a root, along ordinary entries of directories. -/
inductive Below (T : NameTree N A) (root : N) : N → Prop
  | root : Below T root root
  | entry {d c : N} {a : A} : Below T root d → T.isDir d = true → T.isHere a = false →
      T.isUp a = false → T.lookup d a = some c → Below T root c

structure WellFormed (T : NameTree N A) : Prop where
  here : ∀ d a, T.isDir d = true → T.isHere a = true → T.lookup d a = some d
  up : ∀ d a c b, T.isDir d = true → T.isHere a = false → T.isUp a = false →
    T.lookup d a = some c → T.isDir c = true → T.isUp b = true → T.lookup c b = some d

/-- One component of a walk, confined to `root` if there is one. -/
def advance (T : NameTree N A) (root : Option N) (n : N) (a : A) : Option N :=
  if T.isDir n then
    if root = some n ∧ T.isUp a = true then some n else T.lookup n a
  else none

def resolve (T : NameTree N A) (root : Option N) : N → List A → Option N
  | n, [] => some n
  | n, a :: as => (T.advance root n a).bind fun m => T.resolve root m as

/-- The directory in which the last component would be looked up. -/
def resolveParent (T : NameTree N A) (root : Option N) : N → List A → Option N
  | _, [] => none
  | n, [_] => if T.isDir n then some n else none
  | n, a :: b :: as => (T.advance root n a).bind fun m => T.resolveParent root m (b :: as)

variable {T : NameTree N A} {root n m : N}

theorem advance_below (hT : T.WellFormed) {a : A} (h : T.Below root n)
    (hm : T.advance (some root) n a = some m) : T.Below root m := by
  unfold advance at hm
  split at hm
  · rename_i hdir
    split at hm
    · cases hm
      exact h
    rename_i hclamp
    cases ha : T.isHere a with
    | true =>
      rw [hT.here n a hdir ha] at hm
      cases hm
      exact h
    | false =>
      cases hu : T.isUp a with
      | false => exact .entry h hdir ha hu hm
      | true =>
        -- not at the root, so `n` is listed by a node below it
        cases h with
        | root => exact absurd ⟨rfl, hu⟩ hclamp
        | entry hd hddir hhere hup hlist =>
          rw [hT.up _ _ _ a hddir hhere hup hlist hdir hu] at hm
          cases hm
          exact hd
  · cases hm

theorem resolve_below (hT : T.WellFormed) {as : List A} (h : T.Below root n)
    (hm : T.resolve (some root) n as = some m) : T.Below root m := by
  induction as generalizing n with
  | nil =>
    cases hm
    exact h
  | cons a as ih =>
    obtain ⟨k, hk, hrest⟩ := Option.bind_eq_some_iff.mp hm
    exact ih (advance_below hT h hk) hrest

theorem resolveParent_below (hT : T.WellFormed) {as : List A} (h : T.Below root n)
    (hm : T.resolveParent (some root) n as = some m) : T.Below root m := by
  induction as generalizing n with
  | nil => cases hm
  | cons a as ih =>
    cases as with
    | nil =>
      simp only [resolveParent] at hm
      split at hm
      · cases hm
        exact h
      · cases hm
    | cons b as =>
      obtain ⟨k, hk, hrest⟩ := Option.bind_eq_some_iff.mp hm
      exact ih (advance_below hT h hk) hrest

end NameTree

end Xv6.Lib
