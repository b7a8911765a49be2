import Xv6.Ptable.Simulation

/-! # Which process runs where

A processor is in a process exactly while that process is `RUNNING`, and the slot that a `fork`
has taken is touched by that `fork` alone. The other invariants of the table rest on these two.
-/

namespace Xv6.Ptable

open Function (update update_apply)
open Lib

variable {κ : Type} [DecidableEq κ]

variable {p : Slot} {c d : Core κ} {k : κ} {f : Life → Life} {e : Event}

def Doing.child : Doing → Option Slot
  | .allocated np | .initialised np | .inherited np | .copied np => some np
  | .user | .exiting => none

theorem child_of_failing {w : Doing} {np : Slot} (h : w = .allocated np ∨ w = .inherited np) :
    w.child = some np := by
  rcases h with rfl | rfl <;> rfl

/-- Processors and `RUNNING` processes match. -/
structure Placed (c : Core κ) : Prop where
  idle : ∀ k, (c.cpus k).pc.Idle → (c.cpus k).proc = none
  running : ∀ k p, (c.cpus k).proc = some p → (c.life p).state = .running
  placed : ∀ p, (c.life p).state = .running → ∃ k, (c.cpus k).proc = some p
  unique : ∀ k k' p, (c.cpus k).proc = some p → (c.cpus k').proc = some p → k = k'

/-- The child of a `fork` under way belongs to that `fork` alone. -/
structure Forks (c : Core κ) : Prop where
  embryo : ∀ p np, (c.doing p).child = some np → (c.life np).state = .embryo
  distinct : ∀ p p' np, (c.doing p).child = some np → (c.doing p').child = some np → p = p'

/-! ## Processors -/

omit [DecidableEq κ] in
theorem Placed.frame (h : Placed c) (hcpus : d.cpus = c.cpus)
    (hrun : ∀ p, (d.life p).state = .running ↔ (c.life p).state = .running) : Placed d where
  idle := hcpus ▸ h.idle
  running := fun k p hk => (hrun p).mpr (h.running k p (hcpus ▸ hk))
  placed := fun p hp => hcpus ▸ h.placed p ((hrun p).mp hp)
  unique := hcpus ▸ h.unique

theorem Placed.goto {pc : CpuPc} (h : Placed c) (idle : (c.cpus k).pc.Idle) (hlife : d.life = c.life)
    (hcpus : d.cpus = update c.cpus k ⟨none, pc⟩) : Placed d := by
  obtain ⟨hidle, hrunning, hplaced, hunique⟩ := h
  have hat : ∀ j, d.cpus j = if j = k then ⟨none, pc⟩ else c.cpus j := by simp [hcpus, update_apply]
  constructor
  · grind
  · grind
  · intro p hp
    obtain ⟨j, hj⟩ := hplaced p (hlife ▸ hp)
    exact ⟨j, by grind⟩
  · grind

/-- A processor switches to a process that no processor was in. -/
theorem Placed.dispatch {pc : CpuPc} (h : Placed c) (idle : (c.cpus k).pc.Idle)
    (ready : (c.life p).state = .runnable) (busy : ¬ pc.Idle) (hself : (d.life p).state = .running)
    (hlife : ∀ q, q ≠ p → d.life q = c.life q) (hcpus : d.cpus = update c.cpus k ⟨some p, pc⟩) :
    Placed d := by
  obtain ⟨hidle, hrunning, hplaced, hunique⟩ := h
  have hat : ∀ j, d.cpus j = if j = k then ⟨some p, pc⟩ else c.cpus j := by simp [hcpus, update_apply]
  constructor
  · grind
  · grind
  · grind
  · grind

theorem Placed.leave (h : Placed c) (on : (c.cpus k).proc = some p) (hself : (d.life p).state ≠ .running)
    (hrun : ∀ q, q ≠ p → ((d.life q).state = .running ↔ (c.life q).state = .running))
    (hcpus : d.cpus = update c.cpus k ⟨none, State.afterRun (c.cpus k).pc⟩) : Placed d := by
  obtain ⟨hidle, hrunning, hplaced, hunique⟩ := h
  have hat : ∀ j, d.cpus j = if j = k then ⟨none, State.afterRun (c.cpus k).pc⟩ else c.cpus j := by
    simp [hcpus, update_apply]
  constructor
  · grind
  · grind
  · grind
  · grind

/-- A process that runs is in no state but `RUNNING`. -/
theorem Placed.state_of_runs (h : Placed c) (on : c.Runs k p) : (c.life p).state = .running :=
  h.running k p on.1

omit [DecidableEq κ] in
theorem running_entry (h : (f (c.life p)).state = .running ↔ (c.life p).state = .running) (q : Slot) :
    (c.entry p f q).state = .running ↔ (c.life q).state = .running := by
  rw [Core.entry_apply]
  split
  · rename_i heq
    rw [heq]
    exact h
  · rfl

theorem Placed.move (h : Placed c) (hf : Forks c) (hmove : Move c e d) : Placed d := by
  cases hmove with
  | stutter => exact h
  | wake woken =>
    refine h.frame rfl fun p => ?_
    rcases woken p with heq | ⟨hs, heq⟩
    · simp [heq]
    · simp [heq, hs]
  | dispatch idle ready busy =>
    refine h.dispatch idle ready busy ?_ (fun q hq => ?_) rfl
    · dsimp only
      rw [Core.entry_apply, if_pos rfl]
    · dsimp only
      rw [Core.entry_apply, if_neg hq]
  | goto idle still => exact h.goto idle rfl rfl
  | shift => exact h.frame rfl fun p => Iff.rfl
  | awake | init | inherit | adopt | prepare | enter | store =>
    exact h.frame rfl (running_entry Iff.rfl)
  | @yield k p st w on into =>
    refine h.leave on.1 ?_ (fun q hq => ?_) rfl
    · rcases into with ⟨rfl, -⟩ | ⟨rfl, -⟩ <;> simp [Core.entry_apply]
    · simp [Core.entry_apply, hq]
  | @sleep k p ch w on into =>
    refine h.leave on ?_ (fun q hq => ?_) rfl
    · simp [Core.entry_apply]
    · simp [Core.entry_apply, hq]
  | alloc on user free =>
    refine h.frame rfl (running_entry ?_)
    simp [free]
  | fail on forking =>
    refine h.frame rfl (running_entry ?_)
    simp [hf.embryo _ _ (child_of_failing forking)]
  | finish on forking =>
    have hchild := congrArg Doing.child forking
    refine h.frame rfl (running_entry ?_)
    simp [hf.embryo _ _ hchild]
  | exit on exiting left =>
    refine h.leave on.1 (by simp [left.self]) (fun q hq => ?_) rfl
    rcases left.state q hq with heq | ⟨hs, hr⟩ <;> simp [*]
  | reap on scanning dead child =>
    refine h.frame rfl (running_entry ?_)
    simp [dead]

/-! ## Children of `fork` -/

omit [DecidableEq κ] in
theorem Forks.frame (h : Forks c) (hchild : ∀ p np, (d.doing p).child = some np →
      (c.doing p).child = some np ∧ (d.life np).state = .embryo) : Forks d where
  embryo := fun p np hp => (hchild p np hp).2
  distinct := fun p p' np hp hp' => h.distinct p p' np (hchild p np hp).1 (hchild p' np hp').1

omit [DecidableEq κ] in
theorem Forks.advance {np : Slot} {w : Doing} (h : Forks c) (hp : (c.doing p).child = some np)
    (hdoing : d.doing = update c.doing p w)
    (hw : w.child = some np ∧ (d.life np).state = .embryo ∨ w.child = none)
    (hlife : ∀ q, q ≠ np → (d.life q).state = (c.life q).state) : Forks d := by
  refine h.frame fun q nq hq => ?_
  rw [hdoing, update_apply] at hq
  split at hq
  · rename_i heq
    subst heq
    rcases hw with ⟨hw, hst⟩ | hw
    · obtain rfl : np = nq := Option.some.inj (hw.symm.trans hq)
      exact ⟨hp, hst⟩
    · rw [hw] at hq
      cases hq
  · rename_i hne
    have hnq : nq ≠ np := fun heq => hne (h.distinct q p np (heq ▸ hq) hp)
    exact ⟨hq, (hlife nq hnq).trans (h.embryo q nq hq)⟩

omit [DecidableEq κ] in
theorem Forks.same (h : Forks c) (hdoing : d.doing = c.doing)
    (hlife : ∀ q, (c.life q).state = .embryo → (d.life q).state = .embryo) : Forks d :=
  h.frame fun p np hp => by
    rw [hdoing] at hp
    exact ⟨hp, hlife np (h.embryo p np hp)⟩

omit [DecidableEq κ] in
theorem embryo_entry (h : (c.life p).state ≠ .embryo ∨
    (f (c.life p)).state = (c.life p).state) (q : Slot) (hq : (c.life q).state = .embryo) :
    (c.entry p f q).state = .embryo := by
  rw [Core.entry_apply]
  split
  · rename_i heq
    subst heq
    rcases h with h | h
    · exact absurd hq h
    · rw [h, hq]
  · exact hq

omit [DecidableEq κ] in
theorem entry_state_of_ne {q : Slot} (h : q ≠ p) : (c.entry p f q).state = (c.life q).state := by
  rw [Core.entry_apply, if_neg h]

theorem Forks.move (hp : Placed c) (h : Forks c) (hmove : Move c e d) : Forks d := by
  cases hmove with
  | stutter => exact h
  | wake woken =>
    refine h.same rfl fun q hq => ?_
    rcases woken q with heq | ⟨hs, heq⟩
    · simp [heq, hq]
    · rw [hq] at hs
      cases hs
  | dispatch idle ready busy => exact h.same rfl (embryo_entry (.inl (by simp [ready])))
  | goto | shift => exact h.same rfl fun _ => id
  | awake | enter | store => exact h.same rfl (embryo_entry (.inr rfl))
  | yield on into => exact h.same rfl (embryo_entry (.inl (by simp [hp.state_of_runs on])))
  | sleep on into => exact h.same rfl (embryo_entry (.inl (by simp [hp.running _ _ on])))
  | @alloc k p np n on user free =>
    have hold : ∀ q nq, (c.doing q).child = some nq → nq ≠ np := by
      rintro q nq hq rfl
      rw [h.embryo q nq hq] at free
      cases free
    have hnew : ∀ q nq, (update c.doing p (.allocated np) q).child = some nq →
        q = p ∧ nq = np ∨ (c.doing q).child = some nq := by
      intro q nq hq
      rw [update_apply] at hq
      split at hq
      · exact .inl ⟨‹_›, (Option.some.inj hq).symm⟩
      · exact .inr hq
    refine ⟨fun q nq hq => ?_, fun q q' nq hq hq' => ?_⟩
    · rcases hnew q nq hq with ⟨-, rfl⟩ | hq
      · simp [Core.entry_apply]
      · exact (entry_state_of_ne (hold q nq hq)).trans (h.embryo q nq hq)
    rcases hnew q nq hq with ⟨hqp, hn⟩ | hq <;> rcases hnew q' nq hq' with ⟨hqp', hn'⟩ | hq'
    · rw [hqp, hqp']
    · exact absurd hn (hold q' nq hq')
    · exact absurd hn' (hold q nq hq)
    · exact h.distinct q q' nq hq hq'
  | fail on forking =>
    exact h.advance (child_of_failing forking) rfl (.inr rfl) fun q hq => entry_state_of_ne hq
  | init on forking | inherit on forking | adopt on forking =>
    have hchild := congrArg Doing.child forking
    refine h.advance hchild rfl (.inl ⟨rfl, ?_⟩) fun q hq => entry_state_of_ne hq
    exact embryo_entry (.inr rfl) _ (h.embryo _ _ hchild)
  | @finish k p np on forking =>
    have hchild := congrArg Doing.child forking
    refine h.frame fun q nq hq => ?_
    dsimp only at hq
    rw [update_apply] at hq
    split at hq
    · cases hq
    rename_i hqp
    rw [update_apply] at hq
    split at hq
    · cases hq
    · have hnq : nq ≠ np := fun heq => hqp (h.distinct q p np (heq ▸ hq) hchild)
      exact ⟨hq, (entry_state_of_ne hnq).trans (h.embryo q nq hq)⟩
  | @prepare k p on user mortal =>
    refine h.frame fun q nq hq => ?_
    dsimp only at hq
    rw [update_apply] at hq
    split at hq
    · cases hq
    · exact ⟨hq, embryo_entry (.inr rfl) _ (h.embryo q nq hq)⟩
  | @exit k p l on exiting left =>
    refine h.frame fun q nq hq => ?_
    dsimp only [Core.out] at hq
    rw [update_apply] at hq
    split at hq
    · cases hq
    have hnq := h.embryo q nq hq
    have hne : nq ≠ p := by
      rintro rfl
      rw [hp.state_of_runs on] at hnq
      cases hnq
    refine ⟨hq, ?_⟩
    rcases left.state nq hne with heq | ⟨hs, -⟩
    · exact heq.trans hnq
    · rw [hnq] at hs
      cases hs
  | reap on scanning dead child => exact h.same rfl (embryo_entry (.inl (by simp [dead])))

/-! ## Runs -/

/-- Only a switch in `scheduler()` puts a processor into a process, and the process is
`RUNNABLE`. -/
theorem Move.switch (h : Move c e d) (hold : (c.cpus k).proc ≠ some p) (hnew : (d.cpus k).proc = some p) :
    (c.life p).state = .runnable := by
  cases h with
  | @dispatch j q pc idle ready busy =>
    dsimp only at hnew
    rw [update_apply] at hnew
    split at hnew
    · cases hnew
      exact ready
    · exact absurd hnew hold
  | goto | yield | sleep | exit =>
    simp only [Core.out, update_apply] at hnew
    split at hnew
    · cases hnew
    · exact absurd hnew hold
  | _ => exact absurd hnew hold

structure Matched (c : Core κ) : Prop where
  placed : Placed c
  forks : Forks c

theorem Matched.move (h : Matched c) (hmove : Move c e d) : Matched d :=
  ⟨h.placed.move h.forks hmove, h.forks.move h.placed hmove⟩

omit [DecidableEq κ] in
theorem booted_matched {root : Nat} {slot : Int → Int → Slot} : Matched (booted κ root slot).core where
  placed :=
    { idle := fun _ _ => rfl
      running := fun _ _ h => by cases h
      placed := fun p h => by
        by_cases hp : p = 0 <;> simp [booted, State.core, Proc.life, initcode, blank, hp] at h
      unique := fun _ _ _ h => by cases h }
  forks :=
    { embryo := fun _ _ h => by cases h
      distinct := fun _ _ _ h => by cases h }

/-! ## First steps of a machine -/

def initRuns (c : κ) : List (Label κ) := [.schedule c, .scan c, .resume c]

def forkCall (c : κ) : List (Label κ) :=
  [.forkAlloc c, .forkInit c, .forkInherit c, .forkCopy c, .forkFinish c]

def exitCall (c : κ) : List (Label κ) := [.exitPrepare c, .exitFinish c]

end Xv6.Ptable
