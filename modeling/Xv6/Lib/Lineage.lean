import Mathlib.Data.Fintype.Card
import Mathlib.Logic.Relation

/-! # Parent pointers

The way up from a node along parent pointers that may be null. `Lineage` is the list of the
nodes on a way that ends at the root; it visits no node twice.
-/

namespace Xv6.Lib

variable {α : Type} {parent parent' : α → Option α} {root a b : α} {l l' : List α}

/-- The way up from a node ends at `root`, the nodes on it in order. -/
inductive Lineage (parent : α → Option α) (root : α) : α → List α → Prop
  | root (top : parent root = none) : Lineage parent root root [root]
  | up {a b : α} {l : List α} (link : parent a = some b) (rest : Lineage parent root b l) :
      Lineage parent root a (a :: l)

/-- The walk up from a node, for at most the given number of rounds. -/
def climb (parent : α → Option α) : Nat → Option α → Option (List α)
  | _, none => some []
  | 0, some _ => none
  | n + 1, some a => (climb parent n (parent a)).map (a :: ·)

namespace Lineage

section

variable (h : Lineage parent root a l)

include h

theorem unique (h' : Lineage parent root a l') : l = l' := by
  induction h generalizing l' with
  | root top =>
    cases h' with
    | root => rfl
    | up link => exact absurd (top.symm.trans link) nofun
  | up link _ ih =>
    cases h' with
    | root top => exact absurd (top.symm.trans link) nofun
    | up link' rest' =>
      obtain rfl := Option.some.inj (link.symm.trans link')
      rw [ih rest']

/-- A node on the way has a way of its own, and no longer one. -/
theorem of_mem (hb : b ∈ l) : ∃ l', Lineage parent root b l' ∧ l'.length ≤ l.length := by
  induction h with
  | root top =>
    obtain rfl := List.mem_singleton.mp hb
    exact ⟨_, .root top, Nat.le_refl _⟩
  | up link rest ih =>
    rcases List.mem_cons.mp hb with rfl | hb
    · exact ⟨_, .up link rest, Nat.le_refl _⟩
    · obtain ⟨l', h', hle⟩ := ih hb
      exact ⟨l', h', Nat.le_succ_of_le hle⟩

theorem nodup : l.Nodup := by
  induction h with
  | root => exact List.nodup_singleton _
  | up link rest ih =>
    refine List.nodup_cons.mpr ⟨fun hmem => ?_, ih⟩
    obtain ⟨l', h', hle⟩ := rest.of_mem hmem
    rw [h'.unique (.up link rest), List.length_cons] at hle
    omega

theorem ancestor (hab : Relation.TransGen (fun x y => parent x = some y) a b) :
    ∃ l', Lineage parent root b l' ∧ l'.length < l.length := by
  induction hab with
  | single link =>
    cases h with
    | root top => exact absurd (top.symm.trans link) nofun
    | up link' rest =>
      obtain rfl := Option.some.inj (link'.symm.trans link)
      exact ⟨_, rest, Nat.lt_succ_self _⟩
  | tail _ link ih =>
    obtain ⟨l', h', hlt⟩ := ih
    cases h' with
    | root top => exact absurd (top.symm.trans link) nofun
    | up link' rest =>
      obtain rfl := Option.some.inj (link'.symm.trans link)
      exact ⟨_, rest, Nat.lt_of_succ_lt hlt⟩

theorem not_cycle : ¬ Relation.TransGen (fun x y => parent x = some y) a a := by
  intro hcycle
  obtain ⟨l', h', hlt⟩ := h.ancestor hcycle
  rw [h'.unique h] at hlt
  exact Nat.lt_irrefl _ hlt

theorem getLast? : l.getLast? = some root := by
  induction h with
  | root => rfl
  | up _ _ ih => rw [List.getLast?_cons, ih, Option.getD_some]

end

theorem forall_mem {good : α → Prop} (hup : ∀ x y, good x → parent x = some y → good y)
    (h : Lineage parent root a l) (ha : good a) : ∀ x ∈ l, good x := by
  induction h with
  | root => simpa using ha
  | up link _ ih => exact List.forall_mem_cons.mpr ⟨ha, ih (hup _ _ ha link)⟩

theorem congr (h : Lineage parent root a l) (heq : ∀ x ∈ l, parent' x = parent x) :
    Lineage parent' root a l := by
  induction h with
  | root top => exact .root ((heq _ List.mem_cons_self).trans top)
  | up link _ ih =>
    exact .up ((heq _ List.mem_cons_self).trans link)
      (ih fun x hx => heq x (List.mem_cons_of_mem _ hx))

theorem handOver (h : Lineage parent root a l) {p : α} (top : parent root = none)
    (hgiven : ∀ x, parent x = some p → parent' x = some root)
    (hkept : ∀ x, parent x ≠ some p → parent' x = parent x) :
    ∃ l', Lineage parent' root a l' := by
  have htop : parent' root = none := by
    rw [hkept root (by simp [top]), top]
  induction h with
  | root => exact ⟨_, .root htop⟩
  | @up a b l link _ ih =>
    by_cases hp : parent a = some p
    · exact ⟨_, .up (hgiven a hp) (.root htop)⟩
    · obtain ⟨l', h'⟩ := ih
      exact ⟨_, .up ((hkept a hp).trans link) h'⟩

theorem climb_eq (h : Lineage parent root a l) : ∀ n, l.length ≤ n → climb parent n (some a) = some l := by
  induction h with
  | root top =>
    intro n hn
    cases n with
    | zero => simp at hn
    | succ n => simp [climb, top]
  | up link _ ih =>
    intro n hn
    cases n with
    | zero => simp at hn
    | succ n => simp [climb, link, ih n (Nat.le_of_succ_le_succ hn)]

theorem climb_card [Fintype α] (h : Lineage parent root a l) :
    climb parent (Fintype.card α) (some a) = some l :=
  h.climb_eq _ h.nodup.length_le_card

end Lineage

end Xv6.Lib
