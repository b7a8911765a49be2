import Xv6.Lib.Search
import Xv6.Ptable.Tree

/-! # Namespaces

`do_ce` takes the next value of `namespace_id` that no process has. The counter wraps, so the
value may have been given away before; it is the search over the table that makes it fresh.
A ghost counter says which call of `cm_create_and_enter` a process goes back to.
-/

namespace Xv6.Ptable

open Lib

variable {κ : Type}

variable {p : Slot} {c d : Core κ} {root : Nat} {slot : Int → Int → Slot}

/-! ## The search ends -/

theorem incr_emod (id : Int) : incr id % 4294967296 = (id + 1) % 4294967296 :=
  Int.bmod_emod

theorem incr_iterate_emod (id : Int) (n : Nat) : incr^[n] id % 4294967296 = (id + n) % 4294967296 := by
  induction n with
  | zero => simp
  | succ n ih =>
    rw [Function.iterate_succ_apply', incr_emod]
    omega

/-- While it is short, the counter passes no value twice. -/
theorem incr_iterate_injective (id : Int) (i j : Fin (nproc + 1)) (h : incr^[i] id = incr^[j] id) :
    i = j := by
  have hi := incr_iterate_emod id i
  have hj := incr_iterate_emod id j
  have hsmall : nproc + 1 ≤ 65 := by decide
  rw [h] at hi
  ext
  omega

theorem ceLoop_eq (s : State κ) (n : Nat) (id : Int) : s.ceLoop n id = firstFree incr s.taken n id := by
  induction n generalizing id with
  | zero => rfl
  | succ n ih =>
    unfold State.ceLoop firstFree
    rw [ih]

theorem ceLoop_isSome (s : State κ) (id : Int) : (s.ceLoop (nproc + 1) id).isSome := by
  rw [ceLoop_eq]
  refine firstFree_isSome id (fun q => (s.procs q).nameSpace) (fun y hy => ?_)
    (incr_iterate_injective id)
  obtain ⟨q, -, hq⟩ := List.any_eq_true.mp hy
  simp only [Bool.and_eq_true, beq_iff_eq] at hq
  exact ⟨q, hq.2⟩

theorem doCe_isSome (s : State κ) (p : Slot) : (s.doCe p).isSome := by
  unfold State.doCe
  split
  · rfl
  · rw [Option.isSome_map]
    exact ceLoop_isSome s _

/-! ## Where containers come from -/

/-- `origin p` is the number of the successful `cm_create_and_enter` that `p`, or the process
that `p` descends from by forks made after it, has made. -/
structure Origins where
  calls : Nat
  origin : Slot → Option Nat

def Origins.start : Origins := ⟨0, fun _ => none⟩

def Origins.record (g : Origins) : Event → Origins
  | .inherit p np => { g with origin := Function.update g.origin np (g.origin p) }
  | .enter p => ⟨g.calls + 1, Function.update g.origin p (some g.calls)⟩
  | _ => g

/-- The child that a `fork` has given the container of its parent. -/
def Doing.heir : Doing → Option Slot
  | .inherited np | .copied np => some np
  | _ => none

theorem Doing.child_of_heir {w : Doing} {np : Slot} (h : w.heir = some np) : w.child = some np := by
  cases w <;> first | exact h | cases h

/-- Namespaces of live processes say which call they go back to. -/
structure Spaces (c : Core κ) (g : Origins) : Prop where
  outside : ∀ q, (c.life q).inContainer = 0 → (c.life q).nameSpace = 0
  inside : ∀ q, (c.life q).Live → (c.life q).inContainer ≠ 0 → g.origin q ≠ none
  zero : ∀ q, (c.life q).Live → ((c.life q).nameSpace = 0 ↔ g.origin q = none)
  same : ∀ q q', (c.life q).Live → (c.life q').Live →
    ((c.life q).nameSpace = (c.life q').nameSpace ↔ g.origin q = g.origin q')
  past : ∀ q n, (c.life q).Live → g.origin q = some n → n < g.calls
  heir : ∀ p np, (c.doing p).heir = some np →
    (c.life np).inContainer = (c.life p).inContainer ∧ (c.life np).nameSpace = (c.life p).nameSpace ∧
      g.origin np = g.origin p

def SameSpace (x y : Life) : Prop := y.inContainer = x.inContainer ∧ y.nameSpace = x.nameSpace

theorem Spaces.frame {g : Origins} (h : Spaces c g) (ht : Tree c)
    (hlive : ∀ q, (d.life q).Live → (c.life q).Live ∨ ∃ p, c.doing p = .copied q)
    (hsame : ∀ q, SameSpace (c.life q) (d.life q))
    (hheir : ∀ p np, (d.doing p).heir = some np → (c.doing p).heir = some np) : Spaces d g := by
  -- a child that becomes live has what its live parent has
  have hold : ∀ q, (d.life q).Live → ∃ p, (c.life p).Live ∧
      (c.life q).inContainer = (c.life p).inContainer ∧ (c.life q).nameSpace = (c.life p).nameSpace ∧
      g.origin q = g.origin p := by
    intro q hq
    rcases hlive q hq with hold | ⟨p, hp⟩
    · exact ⟨q, hold, rfl, rfl, rfl⟩
    · exact ⟨p, (ht.busy p (by simp [hp])).1, h.heir p q (by rw [hp]; rfl)⟩
  refine ⟨fun q hq => ?_, fun q hq hin => ?_, fun q hq => ?_, fun q q' hq hq' => ?_, fun q n hq hn => ?_,
    fun p np hp => ?_⟩
  · rw [(hsame q).1] at hq
    rw [(hsame q).2]
    exact h.outside q hq
  · obtain ⟨p, hp, hin', -, horigin⟩ := hold q hq
    rw [(hsame q).1, hin'] at hin
    rw [horigin]
    exact h.inside p hp hin
  · obtain ⟨p, hp, -, hns, horigin⟩ := hold q hq
    rw [(hsame q).2, hns, horigin]
    exact h.zero p hp
  · obtain ⟨p, hp, -, hns, horigin⟩ := hold q hq
    obtain ⟨p', hp', -, hns', horigin'⟩ := hold q' hq'
    rw [(hsame q).2, (hsame q').2, hns, hns', horigin, horigin']
    exact h.same p p' hp hp'
  · obtain ⟨p, hp, -, -, horigin⟩ := hold q hq
    exact h.past p n hp (horigin ▸ hn)
  · rw [(hsame np).1, (hsame np).2, (hsame p).1, (hsame p).2]
    exact h.heir p np (hheir p np hp)

/-- A process in a `fork` is live, and its child is not. -/
theorem heir_facts (hf : Forks c) (ht : Tree c) {n : Slot} (hheir : (c.doing p).heir = some n) :
    (c.life p).Live ∧ (c.life n).state = .embryo := by
  refine ⟨(ht.busy p fun huser => ?_).1, hf.embryo p n (Doing.child_of_heir hheir)⟩
  rw [huser] at hheir
  cases hheir

theorem Spaces.child {g g' : Origins} {np : Slot} {w : Doing} (h : Spaces c g) (hf : Forks c) (ht : Tree c)
    (hchild : (c.doing p).child = some np) (hcalls : g'.calls = g.calls)
    (horigin : ∀ q, q ≠ np → g'.origin q = g.origin q) (hlife : ∀ q, q ≠ np → d.life q = c.life q)
    (hself : (d.life np).state = (c.life np).state)
    (hout : (d.life np).inContainer = 0 → (d.life np).nameSpace = 0)
    (hdoing : d.doing = Function.update c.doing p w)
    (hw : ∀ n, w.heir = some n → n = np ∧ (d.life np).inContainer = (c.life p).inContainer ∧
      (d.life np).nameSpace = (c.life p).nameSpace ∧ g'.origin np = g.origin p) : Spaces d g' := by
  have hnp := hf.embryo p np hchild
  have hne : ∀ q, (d.life q).Live → q ≠ np := by
    rintro q hq rfl
    exact hq.2 (hself.trans hnp)
  have hpnp : p ≠ np := by
    rintro rfl
    have hp := ht.busy p fun huser => by
      rw [huser] at hchild
      cases hchild
    exact hp.1.2 hnp
  refine ⟨fun q hq => ?_, fun q hq => ?_, fun q hq => ?_, fun q q' hq hq' => ?_, fun q n hq => ?_,
    fun q n hq => ?_⟩
  · by_cases hqn : q = np
    · rw [hqn] at hq ⊢
      exact hout hq
    · rw [hlife q hqn] at hq ⊢
      exact h.outside q hq
  · rw [horigin q (hne q hq), hlife q (hne q hq)]
    exact h.inside q (hlife q (hne q hq) ▸ hq)
  · rw [horigin q (hne q hq), hlife q (hne q hq)]
    exact h.zero q (hlife q (hne q hq) ▸ hq)
  · rw [horigin q (hne q hq), horigin q' (hne q' hq'), hlife q (hne q hq), hlife q' (hne q' hq')]
    exact h.same q q' (hlife q (hne q hq) ▸ hq) (hlife q' (hne q' hq') ▸ hq')
  · rw [horigin q (hne q hq), hcalls]
    exact h.past q n (hlife q (hne q hq) ▸ hq)
  · rcases doing_update hdoing q with ⟨rfl, heq⟩ | ⟨hqp, heq⟩
    · obtain ⟨rfl, hnew⟩ := hw n (heq ▸ hq)
      rw [hlife q hpnp, horigin q hpnp]
      exact hnew
    -- the child of one `fork` is not the heir of another
    rw [heq] at hq
    have hqn : q ≠ np := by
      rintro rfl
      exact (heir_facts hf ht hq).1.2 hnp
    have hnn : n ≠ np := fun hnn =>
      hqp (hf.distinct q p n (Doing.child_of_heir hq) (hnn ▸ hchild))
    rw [hlife q hqn, hlife n hnn, horigin q hqn, horigin n hnn]
    exact h.heir q n hq

/-- A fresh value is not zero: the process that looks for it has namespace zero itself. -/
theorem Spaces.enter {g : Origins} {id : Int} (h : Spaces c g) (halive : (c.life p).Alive)
    (hout : (c.life p).inContainer = 0) (fresh : ∀ q, (c.life q).state ≠ .unused → (c.life q).nameSpace ≠ id)
    (hself : d.life p = { c.life p with inContainer := 1, nameSpace := id })
    (hlife : ∀ q, q ≠ p → d.life q = c.life q)
    (hheir : ∀ q n, (d.doing q).heir = some n → q ≠ p ∧ n ≠ p ∧ (c.doing q).heir = some n) :
    Spaces d (g.record (.enter p)) := by
  have hid : id ≠ 0 := by
    rw [← h.outside p hout]
    exact (fresh p halive.1.1).symm
  have hmine : (g.record (.enter p)).origin p = some g.calls := by simp [Origins.record]
  have horigin : ∀ q, q ≠ p → (g.record (.enter p)).origin q = g.origin q := by
    intro q hq
    simp [Origins.record, hq]
  have hns : (d.life p).nameSpace = id := by rw [hself]
  have hlive : ∀ q, q ≠ p → (d.life q).Live → (c.life q).Live := fun q hq hl => hlife q hq ▸ hl
  have hother : ∀ q, q ≠ p → (d.life q).Live → (d.life q).nameSpace ≠ id := by
    intro q hq hl
    rw [hlife q hq] at hl ⊢
    exact fresh q hl.1
  have hpast : ∀ q, q ≠ p → (d.life q).Live → g.origin q ≠ some g.calls := by
    intro q hq hl hn
    exact Nat.lt_irrefl _ (h.past q g.calls (hlive q hq hl) hn)
  refine ⟨fun q hq => ?_, fun q hl hq => ?_, fun q hl => ?_, fun q q' hl hl' => ?_, fun q n hl hn => ?_,
    fun q n hq => ?_⟩
  · by_cases hqp : q = p
    · rw [hqp, hself] at hq
      exact absurd hq one_ne_zero
    · rw [hlife q hqp] at hq ⊢
      exact h.outside q hq
  · by_cases hqp : q = p
    · rw [hqp, hmine]
      exact nofun
    · rw [horigin q hqp]
      exact h.inside q (hlive q hqp hl) (hlife q hqp ▸ hq)
  · by_cases hqp : q = p
    · rw [hqp, hmine, hns]
      exact iff_of_false hid nofun
    · rw [horigin q hqp, hlife q hqp]
      exact h.zero q (hlive q hqp hl)
  · by_cases hqp : q = p
    · by_cases hqp' : q' = p
      · rw [hqp, hqp']
        exact iff_of_true rfl rfl
      · rw [hqp, hmine, horigin q' hqp', hns]
        exact iff_of_false (hother q' hqp' hl').symm (hpast q' hqp' hl').symm
    · by_cases hqp' : q' = p
      · rw [hqp', hmine, horigin q hqp, hns]
        exact iff_of_false (hother q hqp hl) (hpast q hqp hl)
      · rw [horigin q hqp, horigin q' hqp', hlife q hqp, hlife q' hqp']
        exact h.same q q' (hlive q hqp hl) (hlive q' hqp' hl')
  · by_cases hqp : q = p
    · rw [hqp, hmine] at hn
      obtain rfl := Option.some.inj hn
      exact Nat.lt_succ_self _
    · rw [horigin q hqp] at hn
      exact Nat.lt_succ_of_lt (h.past q n (hlive q hqp hl) hn)
  · obtain ⟨hqp, hnp, hold⟩ := hheir q n hq
    rw [hlife q hqp, hlife n hnp, horigin q hqp, horigin n hnp]
    exact h.heir q n hold

theorem sameSpace_entry {f : Life → Life} (h : SameSpace (c.life p) (f (c.life p))) (q : Slot) :
    SameSpace (c.life q) (c.entry p f q) := by
  by_cases hq : q = p
  · rw [hq, entry_self]
    exact h
  · rw [entry_of_ne q hq]
    exact ⟨rfl, rfl⟩

variable [DecidableEq κ]

theorem Spaces.move {e : Event} {g : Origins} (hr : Rooted c) (h : Spaces c g) (hmove : Move c e d) :
    Spaces d (g.record e) := by
  have hlive := (hmove.growth hr.toMatched).live
  obtain ⟨⟨hp, hf⟩, ht⟩ := hr
  cases hmove with
  | stutter => exact h
  | @wake l woken =>
    refine h.frame ht hlive (fun q => ?_) fun _ _ => id
    dsimp only
    rcases woken q with heq | ⟨-, heq⟩ <;> exact heq ▸ ⟨rfl, rfl⟩
  | dispatch | awake | yield | sleep =>
    exact h.frame ht hlive (sameSpace_entry ⟨rfl, rfl⟩) fun _ _ => id
  | goto | shift => exact h.frame ht hlive (fun _ => ⟨rfl, rfl⟩) fun _ _ => id
  | alloc | fail | prepare =>
    exact h.frame ht hlive (sameSpace_entry ⟨rfl, rfl⟩) (slot_update rfl (.inl rfl))
  | init on forking =>
    exact h.child hf ht (congrArg Doing.child forking) rfl (fun _ _ => rfl) entry_of_ne
      (by simp [entry_self]) (fun _ => congrArg Life.nameSpace entry_self) rfl nofun
  | @inherit k p np on forking =>
    refine h.child hf ht (congrArg Doing.child forking) rfl (fun q hq => ?_) entry_of_ne
      (by simp [entry_self]) ?_ rfl ?_
    · exact Function.update_of_ne hq _ _
    · dsimp only
      rw [entry_self]
      exact h.outside p
    · rintro n ⟨⟩
      exact ⟨rfl, by simp [entry_self], by simp [entry_self], Function.update_self ..⟩
  | adopt on forking =>
    refine h.frame ht hlive (sameSpace_entry ⟨rfl, rfl⟩) (slot_update rfl (.inr ?_))
    rw [forking]
    rfl
  | finish =>
    refine h.frame ht hlive (sameSpace_entry ⟨rfl, rfl⟩) fun q n hq => ?_
    exact slot_update rfl (.inl rfl) q n (slot_update rfl (.inl rfl) q n hq)
  | exit on exiting left =>
    refine h.frame ht hlive (fun q => ?_) (slot_update rfl (.inl rfl))
    dsimp only [Core.out]
    rw [left.frame q]
    exact ⟨rfl, rfl⟩
  | reap | store => exact h.frame ht hlive (sameSpace_entry ⟨rfl, rfl⟩) fun _ _ => id
  | @enter k p id on user outside fresh =>
    have hrun := Life.alive_of_state (.inr (.inr (hp.state_of_runs on)))
    refine h.enter hrun outside fresh entry_self entry_of_ne fun q n hq => ⟨?_, ?_, hq⟩
    · rintro rfl
      rw [user] at hq
      cases hq
    · rintro rfl
      exact hrun.1.2 (heir_facts hf ht hq).2

/-! ## Runs -/

/-- A step of the machine, with the origins of containers. -/
def markedStep (x : State κ × Origins) (a : Label κ) : Option (State κ × Origins) :=
  (x.1.step a).map fun t => (t, x.2.record (event x.1 a))

abbrev Marked (x : State κ × Origins) (a : Label κ) (y : State κ × Origins) : Prop :=
  markedStep x a = some y

omit [DecidableEq κ] in
theorem booted_spaces :
    Spaces (booted κ root slot).core .start := by
  have hzero : ∀ q, ((booted κ root slot).core.life q).inContainer = 0 ∧
      ((booted κ root slot).core.life q).nameSpace = 0 := by
    intro q
    by_cases hq : q = 0 <;> simp [booted, State.core, Proc.life, initcode, blank, hq]
  refine ⟨fun q _ => (hzero q).2, fun q _ hin => absurd (hzero q).1 hin, fun q _ => ?_, fun q q' _ _ => ?_,
    fun _ _ _ horigin => (by cases horigin), fun _ _ hheir => (by cases hheir)⟩
  · exact iff_of_true (hzero q).2 rfl
  · exact iff_of_true ((hzero q).2.trans (hzero q').2.symm) rfl

theorem spaces_of_run {as : List (Label κ)} {s : State κ}
    {g : Origins} (hrun : Run Marked (booted κ root slot, .start) as (s, g)) : Spaces s.core g := by
  have hstep : ∀ (x : State κ × Origins) a y,
      Rooted x.1.core ∧ Spaces x.1.core x.2 → Marked x a y → Rooted y.1.core ∧ Spaces y.1.core y.2 := by
    rintro x a y ⟨hr, hs⟩ hmarked
    obtain ⟨t, hstep, rfl⟩ := Option.map_eq_some_iff.mp hmarked
    have hmove := move_of_step hstep
    exact ⟨hr.move hmove, hs.move hr hmove⟩
  exact (hrun.invariant hstep ⟨booted_rooted, booted_spaces⟩).2

/-- `cm_create_and_enter` always terminates; live processes have the same non-zero namespace
exactly when they go back to the same call of it; outside a container the namespace is zero. -/
theorem namespaces_identify_containers (root : Nat) (slot : Int → Int → Slot) (as : List (Label κ))
    (s : State κ) (g : Origins) (hrun : Run Marked (booted κ root slot, .start) as (s, g)) :
    (∀ p, (s.doCe p).isSome) ∧
      (∀ p, (s.procs p).inContainer = 0 → (s.procs p).nameSpace = 0) ∧
      ∀ p q, (s.procs p).life.Live → (s.procs q).life.Live →
        ((s.procs p).nameSpace = (s.procs q).nameSpace ∧ (s.procs p).nameSpace ≠ 0 ↔
          ∃ n, g.origin p = some n ∧ g.origin q = some n) := by
  have hspaces := spaces_of_run hrun
  refine ⟨doCe_isSome s, hspaces.outside, fun p q hp hq => ?_⟩
  have hsame : (s.procs p).nameSpace = (s.procs q).nameSpace ↔ g.origin p = g.origin q :=
    hspaces.same p q hp hq
  have hzero : (s.procs p).nameSpace = 0 ↔ g.origin p = none := hspaces.zero p hp
  rw [hsame, Ne, hzero]
  cases h : g.origin p with
  | none => simp
  | some n => simp [eq_comm]

/-- `init` enters a container and forks slot 1. -/
theorem namespaces_identify_containers_fork :
    ∃ s g, Run Marked (booted (Fin 1) 1 fun _ _ => 0, .start)
        (initRuns 0 ++ [.createAndEnter 0] ++ forkCall 0) (s, g) ∧
      (s.procs 0).life.Live ∧ (s.procs 1).life.Live ∧
      ((s.procs 0).nameSpace = (s.procs 1).nameSpace ∧ (s.procs 0).nameSpace ≠ 0 ↔
        ∃ n, g.origin 0 = some n ∧ g.origin 1 = some n) := by
  have hex : ((execute markedStep (booted (Fin 1) 1 fun _ _ => 0, .start)
      (initRuns 0 ++ [.createAndEnter 0] ++ forkCall 0)).map fun x =>
        ((x.1.procs 0).state, (x.1.procs 1).state)) = some (.running, .runnable) := by decide +kernel
  obtain ⟨⟨s, g⟩, hs, hstates⟩ := Option.map_eq_some_iff.mp hex
  have hrun := Run.of_execute id hs
  obtain ⟨hrunning, hrunnable⟩ := Prod.mk.inj hstates
  have hlive : (s.procs 0).life.Live := (Life.alive_of_state (.inr (.inr hrunning))).1
  have hlive' : (s.procs 1).life.Live := (Life.alive_of_state (.inr (.inl hrunnable))).1
  exact ⟨s, g, hrun, hlive, hlive',
    (namespaces_identify_containers 1 (fun _ _ => 0) _ s g hrun).2.2 0 1 hlive hlive'⟩

end Xv6.Ptable
