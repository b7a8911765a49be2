import Xv6.Ptable.Ready

/-! # Dispatch

`scheduler()` looks at the state of a process before it switches to it, both where it takes the
process off a queue and in the loop over the table, so what else the queues hold does not
matter.
-/

namespace Xv6.Ptable

open Lib

variable {κ : Type} [DecidableEq κ] {root : Nat} {slot : Int → Int → Slot}

/-! ## Priorities -/

/-- The queue indices that the enqueue functions compute from an entry are in range. -/
def Proc.InRange (x : Proc) : Prop :=
  0 ≤ x.fpPriority ∧ x.fpPriority < prioMax ∧ x.hfsPriority = 0

def PrioritiesInRange (s : State κ) : Prop := ∀ p, (s.procs p).InRange

/-- The priorities that a label hands to `prio_set` are below `PRIO_MAX`. -/
def Label.PrioBelow : Label κ → Prop
  | .prioSet _ _ priority _ => priority < prioMax
  | _ => True

theorem inRange_policy : Policy Proc.InRange fun n => n < prioMax where
  same := fun hx _ hfp hhfs => by
    unfold Proc.InRange
    rw [hfp, hhfs]
    exact hx
  hfs := fun x hx => hx.2.2
  fork_fp := fun x y hx hy _ => ⟨hy.1, hy.2.1, hx.2.2⟩
  fork_hfs := fun x y hx hy _ => ⟨hx.1, hx.2.1, hy.2.2⟩
  to_fp := fun x hx => hx
  prio := fun x n hx h0 hn => ⟨h0, hn, hx.2.2⟩

/-- `hfs_priority` is zero, and the policy is one of the two. -/
def Proc.Scheduled (x : Proc) : Prop := x.hfsPriority = 0 ∧ (x.queueType = 0 ∨ x.queueType = 1)

theorem scheduled_policy : Policy Proc.Scheduled fun _ => True where
  same := fun hx hqt _ hhfs => by
    unfold Proc.Scheduled
    rw [hqt, hhfs]
    exact hx
  hfs := fun _ hx => hx.1
  fork_fp := fun _ _ hx _ _ => ⟨hx.1, .inl rfl⟩
  fork_hfs := fun _ _ _ hy _ => ⟨hy.1, .inr rfl⟩
  to_fp := fun _ hx => ⟨hx.1, .inl rfl⟩
  prio := fun _ _ hx _ _ => hx

def Proc.Queueable (x : Proc) : Prop := x.InRange ∧ x.Scheduled

theorem queueable_policy : Policy Proc.Queueable fun n => n < prioMax where
  same := fun hx hqt hfp hhfs =>
    ⟨inRange_policy.same hx.1 hqt hfp hhfs, scheduled_policy.same hx.2 hqt hfp hhfs⟩
  hfs := fun _ hx => hx.2.1
  fork_fp := fun x y hx hy h =>
    ⟨inRange_policy.fork_fp x y hx.1 hy.1 h, scheduled_policy.fork_fp x y hx.2 hy.2 h⟩
  fork_hfs := fun x y hx hy h =>
    ⟨inRange_policy.fork_hfs x y hx.1 hy.1 h, scheduled_policy.fork_hfs x y hx.2 hy.2 h⟩
  to_fp := fun x hx => ⟨inRange_policy.to_fp x hx.1, scheduled_policy.to_fp x hx.2⟩
  prio := fun x n hx h0 hn => ⟨inRange_policy.prio x n hx.1 h0 hn, scheduled_policy.prio x n hx.2 h0 trivial⟩

/-! ## Runs -/

omit [DecidableEq κ] in
theorem booted_inRange :
    PrioritiesInRange (booted κ root slot) := by
  intro p
  by_cases hp : p = 0 <;> simp [booted, initcode, blank, hp, Proc.InRange]

omit [DecidableEq κ] in
theorem booted_scheduled (q : Slot) :
    ((booted κ root slot).procs q).Scheduled := by
  by_cases hq : q = 0 <;> simp [booted, Proc.Scheduled, initcode, blank, hq]

/-- What the calls keep holds in every state that is reached. -/
theorem Policy.run {good : Proc → Prop} {ok : Int → Prop} (hpol : Policy good ok)
    {queues : Sched.ReadyQueues Slot} {as : List (Label κ)} {s : State κ}
    (hboot : ∀ p, good ((booted κ root slot).procs p))
    (hok : ∀ a ∈ as, ∀ c pid priority word, a = .prioSet c pid priority word → ok priority)
    (hrun : Run Step { booted κ root slot with queues := queues } as s) :
    Matched s.core ∧ ∀ p, good (s.procs p) := by
  refine hrun.invariant_of_labels _ (fun s => Matched s.core ∧ ∀ p, good (s.procs p)) ?_ hok
    ⟨@booted_matched κ root slot, hboot⟩
  rintro u a v ⟨hm, hr⟩ ha hstep
  exact ⟨hm.move (move_of_step hstep), hpol.move hr ha (ready_of_step hm hstep)⟩

/-- With whatever in the ready queues at the start: a processor switches only to a process that
is `RUNNABLE`, a process is `RUNNING` exactly when it is the process of one processor, and the
priorities stay in the range of the queues. -/
theorem dispatch_safe (root : Nat) (slot : Int → Int → Slot) (queues : Sched.ReadyQueues Slot)
    (as : List (Label κ)) (s : State κ) (hprio : ∀ a ∈ as, a.PrioBelow)
    (hrun : Run Step { booted κ root slot with queues := queues } as s) :
    (∀ a t c p, Step s a t → (s.cpus c).proc ≠ some p → (t.cpus c).proc = some p →
        (s.procs p).state = .runnable) ∧
      (∀ p, (s.procs p).state = .running ↔ ∃! c, (s.cpus c).proc = some p) ∧
      PrioritiesInRange s := by
  obtain ⟨⟨hp, -⟩, hr⟩ := inRange_policy.run booted_inRange
    (fun a ha _ _ _ _ heq => by have := hprio a ha; rw [heq] at this; exact this) hrun
  refine ⟨fun a t c p hstep hold hnew => (move_of_step hstep).switch hold hnew, fun p => ?_, hr⟩
  constructor
  · intro hs
    obtain ⟨c, hc⟩ := hp.placed p hs
    exact ⟨c, hc, fun c' hc' => hp.unique c' c p hc' hc⟩
  · rintro ⟨c, hc, -⟩
    exact hp.running c p hc

/-- `init` runs on one of two processors and has made a child. -/
theorem dispatch_safe_fork :
    ∃ s, Run Step (booted (Fin 2) 1 fun _ _ => 0)
        [.schedule 0, .scan 0, .resume 0, .forkAlloc 0, .forkInit 0, .forkInherit 0, .forkCopy 0,
          .forkFinish 0] s ∧
      (s.procs 0).state = .running ∧ ∃! c, (s.cpus c).proc = some 0 := by
  exact Run.found id (fun s => (s.procs 0).state = .running) (by decide +kernel) fun s hrun hrunning =>
    ⟨hrunning, ((dispatch_safe 1 (fun _ _ => 0) (.empty fun _ _ => 0) _ s (by simp [Label.PrioBelow])
      hrun).2.1 0).mp hrunning⟩

end Xv6.Ptable
