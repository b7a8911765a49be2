import Xv6.Ptable.Dispatch
import Xv6.Sched.QueueRefinement

/-! # Passes of `scheduler()`

On one processor a pass of the outer loop switches to every process that was `RUNNABLE` at its
start: only a switch takes a process out of that state, and the loop over the table comes to
every slot. A `yield` leaves the feedback priority of a process as it is, since no
`hfs_priority` gets above `PRIO_MAX`.
-/

namespace Xv6.Ptable

open Function (update_apply)
open Lib

variable {κ : Type} [DecidableEq κ]

variable {p q : Slot} {c d : Core κ} {k : κ} {e : Event} {s t : State κ} {a : Label κ}

/-! ## What one step does -/

/-- A `RUNNABLE` process stays so until a processor switches to it. -/
theorem Move.runnable (hm : Matched c) (h : Move c e d) (ready : (c.life p).state = .runnable) :
    (d.life p).state = .runnable ∨ ∃ k, (d.cpus k).proc = some p := by
  have hon : ∀ k q, (c.cpus k).proc = some q → (c.life q).state = .running := hm.placed.running
  cases h with
  | stutter | goto | shift => exact .inl ready
  | wake woken => grind
  | @dispatch k q pc idle hq busy =>
    by_cases heq : p = q
    · exact .inr ⟨k, by simp [heq]⟩
    · exact .inl (by grind [Core.entry_apply])
  | fail on forking =>
    have hembryo := hm.forks.embryo _ _ (child_of_failing forking)
    exact .inl (by grind [Core.entry_apply])
  | finish on forking =>
    exact .inl (by grind [Core.entry_apply])
  | exit on exiting left =>
    have hstate := left.state p (by grind [Core.Runs])
    exact .inl (by grind [Core.out])
  | yield | sleep =>
    simp only [Core.out, Core.entry_apply]
    exact .inl (by grind [Core.Runs])
  | _ => exact .inl (by grind [Core.entry_apply, Core.Runs])

theorem Move.cpu (hp : Placed c) (h : Move c e d) (on : (c.cpus k).proc = some q) :
    d.cpus k = c.cpus k ∨ d.cpus k = ⟨none, State.afterRun (c.cpus k).pc⟩ := by
  cases h with
  | dispatch idle | goto idle =>
    have hnone := hp.idle _ idle
    exact .inl (by grind [update_apply])
  | yield | sleep | exit =>
    simp only [Core.out, update_apply]
    grind
  | _ => exact .inl rfl

/-- Beside the steps of the scheduler, a step is one of a process or leaves the processors alone. -/
theorem step_cpus (h : Step s a t) : (∃ c, a = .schedule c ∨ a = .scan c) ∨ t.cpus = s.cpus ∨
    ∃ c p, (s.cpus c).proc = some p := by
  cases a with
  | schedule c => exact .inl ⟨c, .inl rfl⟩
  | scan c => exact .inl ⟨c, .inr rfl⟩
  | wakeup chan =>
    obtain ⟨-, h⟩ := locked_eq_some.mp h
    rw [← Option.some.inj h]
    exact .inr (.inl (s.wakeup1_rest _).cpus)
  | kill pid =>
    obtain ⟨-, h⟩ := locked_eq_some.mp h
    rw [← Option.some.inj h]
    unfold State.kill
    split
    · exact .inr (.inl rfl)
    · exact .inr (.inl (State.requeue_rest _ _).cpus)
  | cvSignal pid =>
    obtain ⟨-, h⟩ := locked_eq_some.mp h
    rw [← Option.some.inj h]
    unfold State.cvSignal
    split <;> exact .inr (.inl rfl)
  | resume c | waitScan c =>
    cases hproc : (s.cpus c).proc with
    | none => simp [Step, State.step, State.resume, State.waitScan, hproc] at h
    | some p => exact .inr (.inr ⟨c, p, hproc⟩)
  | forkAlloc c | exitPrepare c | wait c | sleep c | prioSet c | cvWait c | cvWaitFull c
    | createAndEnter c | store c =>
    obtain ⟨p, on, -⟩ := call_eq_some.mp h
    exact .inr (.inr ⟨c, p, on.1⟩)
  | forkKstackFail c | forkInit c | forkInherit c | forkCopyFail c | forkCopy c | forkFinish c
    | exitFinish c | yield c =>
    obtain ⟨p, on, -⟩ := onCpu_eq_some.mp h
    exact .inr (.inr ⟨c, p, on.1⟩)

/-! ## A pass -/

/-- The pass has still to come to slot `p` of the table. -/
def CpuPc.Before (p : Slot) : CpuPc → Prop
  | .idle => False
  | .queueRun => True
  | .scan i => i ≤ p
  | .scanRun i => i < p

theorem CpuPc.Before.afterRun {pc : CpuPc} (h : pc.Before p) : (State.afterRun pc).Before p := by
  cases pc with
  | queueRun => exact Nat.zero_le _
  | scanRun i => exact Nat.succ_le_of_lt h
  | idle | scan i => exact h

/-- `p` waits for the pass that processor `k` is in. -/
structure Pending (k : κ) (p : Slot) (s : State κ) : Prop extends Matched s.core where
  ready : (s.procs p).state = .runnable
  ahead : (s.cpus k).pc.Before p

theorem Pending.scan (h : Pending k p s) (hstep : s.scan k = some t) :
    (t.cpus k).proc = some p ∨ (t.cpus k).pc.Before p := by
  have hahead := h.ahead
  unfold State.scan at hstep
  split at hstep
  · rename_i i hpc
    rw [hpc] at hahead
    have hle : i ≤ p.val := hahead
    rw [if_pos (by by_contra hlock; rw [if_neg hlock] at hstep; cases hstep),
      dif_pos (Nat.lt_of_le_of_lt hle p.isLt)] at hstep
    split at hstep
    · cases hstep
      by_cases hi : i = p.val
      · exact .inl (by simp [State.dispatch, hi])
      · exact .inr (by simp [State.dispatch, CpuPc.Before]; omega)
    rename_i hidle
    cases hstep
    have hi : i ≠ p.val := by
      rintro rfl
      exact hidle h.ready
    exact .inr (by simp [State.goto, CpuPc.Before]; omega)
  · cases hstep

theorem Pending.step (single : ∀ j, j = k) (h : Pending k p s) (hstep : Step s a t) :
    (t.cpus k).proc = some p ∨ Pending k p t := by
  have hmove := move_of_step hstep
  by_cases hproc : (t.cpus k).proc = some p
  · exact .inl hproc
  refine .inr ⟨h.toMatched.move hmove, ?_, ?_⟩
  · refine (hmove.runnable h.toMatched h.ready).resolve_right ?_
    rintro ⟨j, hj⟩
    rw [single j] at hj
    exact hproc hj
  rcases step_cpus hstep with ⟨j, rfl | rfl⟩ | hcpus | ⟨j, q, on⟩
  · -- the processor is not at the start of a pass
    have hahead := h.ahead
    obtain rfl := single j
    simp only [Step, State.step, State.schedule] at hstep
    split at hstep
    · rename_i hidle
      rw [hidle] at hahead
      exact hahead.elim
    · cases hstep
  · obtain rfl := single j
    exact (h.scan hstep).resolve_left hproc
  · rw [hcpus]
    exact h.ahead
  · obtain rfl := single j
    rcases hmove.cpu h.placed on with heq | heq
    · have hpc : t.cpus j = s.cpus j := heq
      rw [hpc]
      exact h.ahead
    · have hpc : t.cpus j = ⟨none, State.afterRun (s.cpus j).pc⟩ := heq
      rw [hpc]
      exact h.ahead.afterRun

/-- Somewhere in the run a processor switches to `p`. -/
def SwitchesTo (k : κ) (p : Slot) (s : State κ) (as : List (Label κ)) : Prop :=
  ∃ xs a ys u v, as = xs ++ a :: ys ∧ Run Step s xs u ∧ Step u a v ∧
    (u.cpus k).proc ≠ some p ∧ (v.cpus k).proc = some p

theorem SwitchesTo.cons {as : List (Label κ)} (hstep : Step s a t) (h : SwitchesTo k p t as) :
    SwitchesTo k p s (a :: as) := by
  obtain ⟨xs, b, ys, u, v, rfl, hxs, hv⟩ := h
  exact ⟨a :: xs, b, ys, u, v, rfl, .cons hstep hxs, hv⟩

theorem SwitchesTo.head (as : List (Label κ)) (hplaced : Placed s.core)
    (ready : (s.procs p).state = .runnable) (hstep : Step s a t) (hproc : (t.cpus k).proc = some p) :
    SwitchesTo k p s (a :: as) := by
  refine ⟨[], a, as, s, t, rfl, .nil s, hstep, fun hon => ?_, hproc⟩
  exact absurd (ready.symm.trans (hplaced.running k p hon)) (by simp)

/-- A run from a state where `p` waits to the end of the pass switches to `p`. -/
theorem Pending.switches (single : ∀ j, j = k) (h : Pending k p s) {as : List (Label κ)}
    (hrun : Run Step s as t) (hend : (t.cpus k).pc = .idle) : SwitchesTo k p s as := by
  induction hrun with
  | nil s =>
    have hahead := h.ahead
    rw [hend] at hahead
    exact hahead.elim
  | @cons s u t a as hstep hrest ih =>
    rcases h.step single hstep with hproc | hnext
    · exact .head as h.placed h.ready hstep hproc
    · exact (ih hnext hend).cons hstep

/-- On one processor, with whatever in the ready queues: a pass of `scheduler()` switches to
every process that is `RUNNABLE` at its start. -/
theorem pass_switches_to_runnable {k : κ} (single : ∀ j, j = k) {root : Nat} {slot : Int → Int → Slot}
    {before pass : List (Label κ)} {s u t : State κ} (queues : Sched.ReadyQueues Slot)
    (hrun : Run Step (booted κ root slot) before s)
    (hstart : Step { s with queues := queues } (.schedule k) u)
    (hpass : Run (Guarded Step fun v _ => (v.cpus k).pc ≠ .idle) u pass t)
    (hend : (t.cpus k).pc = .idle) (p : Slot) (hready : (s.procs p).state = .runnable) :
    SwitchesTo k p { s with queues := queues } (.schedule k :: pass) := by
  obtain ⟨hm, -⟩ := scheduled_policy.run (@booted_scheduled κ root slot)
    (fun _ _ _ _ _ _ _ => trivial) hrun
  have hmove := move_of_step hstart
  by_cases hproc : (u.cpus k).proc = some p
  · exact .head pass hm.placed hready hstart hproc
  refine .cons hstart (Pending.switches single ⟨hm.move hmove, ?_, ?_⟩ hpass.of_guarded hend)
  · refine (hmove.runnable hm hready).resolve_right ?_
    rintro ⟨j, hj⟩
    rw [single j] at hj
    exact hproc hj
  -- `scheduler()` goes on to the loop, or to the process at the front of the queues
  simp only [Step, State.step, State.schedule] at hstart
  split at hstart
  · obtain ⟨-, hstart⟩ := locked_eq_some.mp hstart
    split at hstart
    · cases hstart
      simp [State.goto, CpuPc.Before]
    · split at hstart <;> cases hstart <;> simp [State.goto, State.dispatch, CpuPc.Before]
  · cases hstart

/-- `init` is switched to in the first pass and yields. -/
theorem pass_switches_to_init : ∃ u t,
    Step (booted (Fin 1) 1 fun _ _ => 0) (.schedule 0) u ∧ (t.cpus 0).pc = .idle ∧
      Run Step u ([.scan 0, .resume 0, .yield 0] ++ List.replicate 64 (.scan 0)) t ∧
      SwitchesTo 0 0 (booted (Fin 1) 1 fun _ _ => 0)
        (.schedule 0 :: ([.scan 0, .resume 0, .yield 0] ++ List.replicate 64 (.scan 0))) := by
  let s := booted (Fin 1) 1 fun _ _ => 0
  have hex : (s.schedule 0).any fun u =>
      (executeOk State.step (fun v _ => (v.cpus 0).pc ≠ .idle) u
        ([.scan 0, .resume 0, .yield 0] ++ List.replicate 64 (.scan 0))).any fun t =>
          (t.cpus 0).pc = .idle := by decide +kernel
  obtain ⟨u, hu, ht⟩ := (Option.any_eq_true ..).mp hex
  obtain ⟨t, hpass, hend⟩ := Run.foundOk id _ ht fun _ _ h => h
  exact ⟨u, t, hu, hend, hpass.of_guarded, pass_switches_to_runnable (fun j => Subsingleton.elim j 0)
    s.queues (.nil s) hu hpass hend 0 rfl⟩

/-! ## Demotion -/

/-- A wake-up, or a kill of `p`: the steps that set the feedback priority of `p` to zero. -/
def State.Resets (s : State κ) (p : Slot) : Label κ → Prop
  | .wakeup _ | .exitFinish _ => True
  | .kill pid => s.findPid pid = some p
  | _ => False

def State.Yields (s : State κ) (p : Slot) : Label κ → Prop
  | .yield c => (s.cpus c).proc = some p
  | _ => False

/-- From `s` on `p`, a process under the feedback policy, has yielded `n` times, just now the last
time, with no wake-up or kill in between. -/
inductive Yielded (p : Slot) (s : State κ) : Nat → State κ → Prop
  | start : Yielded p s 0 s
  | again {n : Nat} {t u v : State κ} {as : List (Label κ)} {c : κ} (before : Yielded p s n t)
      (meanwhile : Run (Guarded Step fun w a => ¬ w.Resets p a ∧ ¬ w.Yields p a) t as u)
      (policy : (u.procs p).queueType = 1) (on : (u.cpus c).proc = some p)
      (yield : Step u (.yield c) v) : Yielded p s (n + 1) v

theorem Yielded.run {n : Nat} (h : Yielded p s n t) : ∃ as, Run Step s as t := by
  induction h with
  | start => exact ⟨[], .nil s⟩
  | again before meanwhile policy on yield ih =>
    obtain ⟨as, hrun⟩ := ih
    exact ⟨_, hrun.append (meanwhile.of_guarded.snoc yield)⟩

/-- Each yield has put `p` one priority down, to the last at most, and into the queue of its
priority. -/
def Demoted (p : Slot) (s : State κ) (n : Nat) (t : State κ) : Prop :=
  (t.procs p).hfsPriority = min ((s.procs p).hfsPriority + n) hfsPrioMax ∧
    (0 < n → p ∈ t.queues.lists (t.procs p).hfsPriority)

/-- A `yield` does not demote: the feedback law holds only before the first one. -/
theorem demoted_iff {root : Nat} {slot : Int → Int → Slot} {as : List (Label κ)} {n : Nat}
    (hrun : Run Step (booted κ root slot) as s) (h : Yielded p s n t) : Demoted p s n t ↔ n = 0 := by
  have hzero : ∀ {bs : List (Label κ)} {u : State κ}, Run Step (booted κ root slot) bs u →
      (u.procs p).hfsPriority = 0 := fun hbs => ((scheduled_policy.run (@booted_scheduled κ root slot)
    (fun _ _ _ _ _ _ _ => trivial) hbs).2 p).1
  obtain ⟨bs, hbs⟩ := h.run
  unfold Demoted
  rw [hzero hrun, hzero (hrun.append hbs)]
  constructor
  · rintro ⟨hmin, -⟩
    change (0 : Int) = min (0 + (n : Int)) (10 : Int) at hmin
    omega
  · rintro rfl
    simp

theorem init_yields : ∃ t, Yielded 0 (booted (Fin 1) 1 fun _ _ => 0) 1 t ∧ (t.procs 0).hfsPriority = 0 := by
  have hex : (execute State.step (booted (Fin 1) 1 fun _ _ => 0) (initRuns 0)).any fun u =>
      (u.procs 0).queueType = 1 ∧ (u.cpus 0).proc = some 0 ∧
        (u.step (.yield 0)).any fun t => (t.procs 0).hfsPriority = 0 := by decide +kernel
  obtain ⟨u, hrun, hpolicy, hon, ht⟩ := Run.found id _ hex fun _ _ h => h
  obtain ⟨t, ht, hzero⟩ := exists_of_any ht
  refine ⟨t, .again .start (hrun.guard ?_) hpolicy hon ht, hzero⟩
  simp [initRuns, State.Resets, State.Yields]

theorem init_not_demoted : ∃ t, Yielded 0 (booted (Fin 1) 1 fun _ _ => 0) 1 t ∧
    ¬ Demoted 0 (booted (Fin 1) 1 fun _ _ => 0) 1 t := by
  obtain ⟨t, ht, -⟩ := init_yields
  exact ⟨t, ht, fun h => absurd ((demoted_iff (.nil _) ht).mp h) (by decide)⟩

/-- After one `yield` of `init` its feedback priority is still zero. -/
theorem yield_keeps_feedback_priority : ∃ t, Yielded 0 (booted (Fin 1) 1 fun _ _ => 0) 1 t ∧
    (t.procs 0).hfsPriority = 0 ∧ ¬ Demoted 0 (booted (Fin 1) 1 fun _ _ => 0) 1 t := by
  obtain ⟨t, ht, hzero⟩ := init_yields
  refine ⟨t, ht, hzero, fun h => ?_⟩
  have hmin := h.1
  rw [hzero] at hmin
  exact absurd hmin (by decide)

end Xv6.Ptable
