import Xv6.Ptable.Board

/-! # The entries of the ready queues that the calls touch

`htindex` and `pqueues` have `PRIO_MAX` rows of `QUEUESIZE` entries. The enqueue functions take
the row from the process, and `prio_set` lets `PRIO_MAX` itself through: the first `fp_enqueue` of
such a process is past the last row.
-/

namespace Xv6.Ptable

open Lib Sched

variable {κ : Type} {s t : State κ} {p : Slot} {q : ReadyQueues Slot}

/-! ## Accesses -/

/-- `htindex[priority]`, or `pqueues[priority][i]`. -/
inductive Access
  | index (priority : Int)
  | slot (priority i : Int)
  deriving DecidableEq

def Access.InRange : Access → Prop
  | .index k => 0 ≤ k ∧ k < prioMax
  | .slot k i => (0 ≤ k ∧ k < prioMax) ∧ 0 ≤ i ∧ i < queueSize

/-- A call of a queue function, with the queues and the entry it finds. -/
inductive QueueCall
  | fpEnqueue (q : ReadyQueues Slot) (p : Slot) (x : Proc)
  | hfsEnqueue (q : ReadyQueues Slot) (p : Slot) (x : Proc)
  | dequeue (q : ReadyQueues Slot)

/-- The call finds the queues `q` and leaves the queues `q'`. -/
def QueueCall.Runs (q : ReadyQueues Slot) (c : QueueCall) (q' : ReadyQueues Slot) : Prop :=
  match c with
  | .fpEnqueue q0 p x => q0 = q ∧ q' = (Sched.fpEnqueue q p x.state x.fpPriority).2
  | .hfsEnqueue q0 p x => q0 = q ∧ q' = (Sched.hfsEnqueue q p x.state x.hfsPriority).2.1
  | .dequeue q0 => q0 = q ∧ q' = (fpDequeue q).2

def enqueueAccesses (q : ReadyQueues Slot) (k : Int) : List Access :=
  .index k :: if q.tail k = (q.head k - 1).tmod queueSize then [] else [.slot k (q.tail k)]

def QueueCall.accesses : QueueCall → List Access
  | .fpEnqueue q _ x => if x.state = .runnable then enqueueAccesses q x.fpPriority else []
  | .hfsEnqueue q _ x =>
    if x.state = .runnable then
      enqueueAccesses q (if x.hfsPriority > hfsPrioMax then (hfsPrioMax : Int) else x.hfsPriority)
    else []
  -- the loop reads a row before it goes on to the next
  | .dequeue q =>
    let k := firstNonEmpty q prioMax 0
    ((List.range prioMax).filter fun j : Nat => (j : Int) ≤ k).map (fun j : Nat => .index j) ++
      if k ≥ prioMax then [] else [.slot k (q.head k)]

namespace State

/-- The branches on `queueType` in `wakeup1` and `kill`. -/
def requeueCalls (s : State κ) (p : Slot) : List QueueCall :=
  if (s.procs p).queueType = 0 then [.fpEnqueue s.queues p (s.procs p)]
  else if (s.procs p).queueType = 1 then [.hfsEnqueue s.queues p { s.procs p with hfsPriority := 0 }]
  else []

def wakeCalls (chan : Option Chan) : List Slot → State κ → List QueueCall
  | [], _ => []
  | p :: l, s =>
    (if (s.procs p).state = .sleeping ∧ (s.procs p).chan = chan then
      s.update p fun x => { x with state := .runnable } else s).requeueCalls p ++
      wakeCalls chan l (wakeRound chan s p)

def reparentCalls (p : Slot) : List Slot → State κ → List QueueCall
  | [], _ => []
  | r :: l, s =>
    (if (s.procs r).parent = some p ∧ (s.procs r).state = .zombie then
      wakeCalls (some (.proc s.initproc)) (List.finRange nproc)
        (s.update r fun x => { x with parent := some s.initproc })
    else []) ++ reparentCalls p l (reparentRound p s r)

/-- The calls of queue functions in a step, in order. -/
def queueCalls (s : State κ) : Label κ → List QueueCall
  | .schedule _ => [.dequeue s.queues]
  | .yield c =>
    (s.cpus c).proc.toList.flatMap fun p =>
      let x : Proc := { s.procs p with state := .runnable }
      if x.queueType = 1 ∧ x.hfsPriority > prioMax then
        [.hfsEnqueue s.queues p { x with hfsPriority := x.hfsPriority + 1 }]
      else if x.queueType = 0 then [.fpEnqueue s.queues p x]
      else []
  | .forkFinish c =>
    (s.cpus c).proc.toList.flatMap fun p =>
      match s.doing p with
      | .copied np =>
        let x : Proc := { s.procs np with state := .runnable }
        if (s.procs p).queueType = 0 then
          [.fpEnqueue s.queues np { x with fpPriority := (s.procs p).fpPriority }]
        else if (s.procs p).queueType = 1 then
          [.hfsEnqueue s.queues np { x with hfsPriority := (s.procs p).hfsPriority }]
        else []
      | _ => []
  | .wakeup n => s.wakeCalls (some (.other n)) (List.finRange nproc)
  | .kill pid =>
    (s.findPid pid).toList.flatMap fun p =>
      (s.update p fun x =>
        { x with killed := true, state := if x.state = .sleeping then .runnable else x.state }).requeueCalls p
  | .cvSignal pid =>
    (s.sleeper pid).toList.map fun p => .fpEnqueue s.queues p { s.procs p with state := .runnable }
  | .exitFinish c =>
    (s.cpus c).proc.toList.flatMap fun p =>
      let chan := (s.procs p).parent.map Chan.proc
      wakeCalls chan (List.finRange nproc) s ++
        reparentCalls p (List.finRange nproc) (s.wakeup1 chan)
  | _ => []

end State

theorem requeueCalls_run (s : State κ) (p : Slot) :
    Run QueueCall.Runs s.queues (s.requeueCalls p) (s.requeue p).queues := by
  unfold State.requeueCalls State.requeue
  split
  · exact .single ⟨rfl, rfl⟩
  · split
    · refine .single ⟨rfl, ?_⟩
      simp only [State.hfsEnqueue, State.update_procs, if_true]
      rfl
    · exact .nil _

theorem wakeCalls_run (chan : Option Chan) (l : List Slot) (s : State κ) :
    Run QueueCall.Runs s.queues (State.wakeCalls chan l s) (l.foldl (State.wakeRound chan) s).queues := by
  induction l generalizing s with
  | nil => exact .nil _
  | cons p l ih =>
    refine .append ?_ (ih _)
    unfold State.wakeRound
    split
    · exact requeueCalls_run (s.update p _) p
    · exact requeueCalls_run s p

theorem reparentCalls_run (p : Slot) (l : List Slot) (s : State κ) :
    Run QueueCall.Runs s.queues (State.reparentCalls p l s) (l.foldl (State.reparentRound p) s).queues := by
  induction l generalizing s with
  | nil => exact .nil _
  | cons r l ih =>
    refine .append ?_ (ih _)
    unfold State.reparentRound
    by_cases hparent : (s.procs r).parent = some p
    · simp only [hparent, true_and, if_true, State.update_procs]
      split
      · exact wakeCalls_run _ _ (s.update r _)
      · exact .nil _
    · simp only [hparent, false_and, if_false]
      exact .nil _

/-- The ready queues after a step are what the calls of queue functions, one after the other, make of
those before it. -/
theorem step_queues [DecidableEq κ] {a : Label κ} (h : Step s a t) :
    Run QueueCall.Runs s.queues (s.queueCalls a) t.queues := by
  have hon : ∀ {c p}, s.core.Runs c p → (s.cpus c).proc.toList = [p] := fun on => by
    rw [show (s.cpus _).proc = some _ from on.1, Option.toList_some]
  cases a with
  | schedule c =>
    refine .single ⟨rfl, ?_⟩
    simp only [Step, State.step, State.schedule, State.locked] at h
    grind [State.goto, State.dispatch, State.update]
  | forkFinish c =>
    obtain ⟨p, on, h⟩ := onCpu_eq_some.mp h
    split at h
    · rename_i np forking
      obtain ⟨-, h⟩ := locked_eq_some.mp h
      cases h
      have hcur : ∀ f : Proc → Int, (∀ x, f { x with state := .runnable } = f x) →
          f ((s.update np fun x => { x with state := .runnable }).procs p) = f (s.procs p) := by
        grind [State.update_procs]
      simp only [State.queueCalls, hon on, List.flatMap_singleton, forking, State.forkFinish, State.forkEnqueue,
        hcur Proc.queueType fun _ => rfl, hcur Proc.fpPriority fun _ => rfl, hcur Proc.hfsPriority fun _ => rfl]
      split
      · exact .single ⟨rfl, by simp [State.fpEnqueue, State.update]⟩
      · split
        · exact .single ⟨rfl, by simp [State.hfsEnqueue, State.update]⟩
        · exact .nil _
    · cases h
  | exitFinish c =>
    obtain ⟨p, on, h⟩ := onCpu_eq_some.mp h
    split at h
    · obtain ⟨-, h⟩ := locked_eq_some.mp h
      have hqueues : t.queues = ((List.finRange nproc).foldl (State.reparentRound p)
          (s.wakeup1 ((s.procs p).parent.map Chan.proc))).queues := by
        rw [← Option.some.inj h]
        simp only [State.exitLocked, State.switchOut, State.update]
      simp only [State.queueCalls, hon on, List.flatMap_singleton]
      rw [hqueues]
      exact (wakeCalls_run ..).append (reparentCalls_run ..)
    · cases h
  | yield c =>
    obtain ⟨p, on, h⟩ := onCpu_eq_some.mp h
    obtain ⟨-, h⟩ := locked_eq_some.mp h
    cases h
    simp only [State.queueCalls, hon on, List.flatMap_singleton, State.yield, State.update_procs, if_true]
    split
    · exact .single ⟨rfl, by simp [State.switchOut, State.hfsEnqueue, State.update]⟩
    · split
      · exact .single ⟨rfl, by simp [State.switchOut, State.fpEnqueue, State.update]⟩
      · exact .nil _
  | wakeup chan =>
    obtain ⟨-, h⟩ := locked_eq_some.mp h
    rw [← Option.some.inj h]
    exact wakeCalls_run ..
  | kill pid =>
    obtain ⟨-, h⟩ := locked_eq_some.mp h
    cases h
    simp only [State.kill, State.queueCalls]
    cases s.findPid pid with
    | none => exact .nil _
    | some p =>
      rw [Option.toList_some, List.flatMap_singleton]
      exact requeueCalls_run (s.update p _) p
  | cvSignal pid =>
    obtain ⟨-, h⟩ := locked_eq_some.mp h
    cases h
    simp only [State.cvSignal, State.queueCalls, State.sleeper]
    cases List.find? _ _ with
    | none => exact .nil _
    | some p => exact .single ⟨rfl, by simp [State.fpEnqueue, State.update]⟩
  | _ =>
    have hsame : t.queues = s.queues := by
      simp only [Step, State.step, State.scan, State.resume, State.waitScan, State.call, State.onCpu, State.locked,
        State.doCe] at h
      grind [Option.map_eq_some_iff, State.goto, State.dispatch, State.update, State.reap, State.switchOut, State.forkAlloc, State.forkFail,
        State.forkInit, State.forkInherit, State.forkCopy, State.exitPrepare, State.prioSet]
    rw [hsame]
    exact .nil _

/-- `fp_enqueue` of a process with priority `PRIO_MAX`. -/
def QueueCall.Overflows : QueueCall → Prop
  | .fpEnqueue _ _ x => x.state = .runnable ∧ x.fpPriority = prioMax
  | _ => False

/-! ## One call -/

/-- The priorities that a process can have. -/
def Proc.Bounded (x : Proc) : Prop :=
  0 ≤ x.fpPriority ∧ x.fpPriority ≤ prioMax ∧ x.hfsPriority = 0

/-- The two indices of every row are below `QUEUESIZE`. -/
def Indexed (q : ReadyQueues Slot) : Prop :=
  ∀ k, (0 ≤ q.head k ∧ q.head k < queueSize) ∧ 0 ≤ q.tail k ∧ q.tail k < queueSize

theorem next_inRange {i : Int} (h : 0 ≤ i) :
    0 ≤ (i + 1).tmod queueSize ∧ (i + 1).tmod queueSize < queueSize := by
  rw [Int.tmod_eq_emod_of_nonneg (by omega)]
  exact ⟨Int.emod_nonneg _ (by decide), Int.emod_lt_of_pos _ (by decide)⟩

theorem Indexed.enqueueAt (h : Indexed q) (p : Slot) (k : Int) : Indexed (enqueueAt q p k).2 := by
  intro j
  have hj := h j
  unfold Sched.enqueueAt
  dsimp only
  split
  · exact hj
  refine ⟨hj.1, ?_⟩
  dsimp only
  split
  · exact next_inRange (h k).2.1
  · exact hj.2

theorem Indexed.fpDequeue (h : Indexed q) : Indexed (fpDequeue q).2 := by
  intro j
  have hj := h j
  unfold Sched.fpDequeue
  dsimp only
  split
  · exact hj
  refine ⟨?_, hj.2⟩
  dsimp only
  split
  · exact next_inRange (h _).1.1
  · exact hj.1

def QueueCall.Sound : QueueCall → Prop
  | .fpEnqueue q _ x | .hfsEnqueue q _ x => Indexed q ∧ x.Bounded
  | .dequeue q => Indexed q

theorem enqueueAccesses_inRange_iff (h : Indexed q) (k : Int) :
    (∀ a ∈ enqueueAccesses q k, a.InRange) ↔ 0 ≤ k ∧ k < prioMax := by
  unfold enqueueAccesses
  constructor
  · intro hall
    exact hall _ List.mem_cons_self
  intro hk a ha
  rcases List.mem_cons.mp ha with rfl | ha
  · exact hk
  · split at ha
    · cases ha
    · cases List.mem_singleton.mp ha
      exact ⟨hk, (h k).2⟩

theorem QueueCall.Sound.inRange_iff {c : QueueCall} (h : c.Sound) :
    (∀ a ∈ c.accesses, a.InRange) ↔ ¬ c.Overflows := by
  cases c with
  | fpEnqueue q p x =>
    obtain ⟨hq, hlo, hhi, -⟩ := h
    simp only [QueueCall.accesses, QueueCall.Overflows]
    by_cases hready : x.state = .runnable
    · rw [if_pos hready, enqueueAccesses_inRange_iff hq]
      simp only [hready, true_and]
      omega
    · simp [hready]
  | hfsEnqueue q p x =>
    obtain ⟨hq, -, -, hhfs⟩ := h
    refine iff_of_true ?_ id
    simp only [QueueCall.accesses]
    split
    · rw [enqueueAccesses_inRange_iff hq, hhfs]
      decide
    · simp
  | dequeue q =>
    have hfirst := (firstNonEmpty_spec q prioMax 0).1
    refine iff_of_true (fun a ha => ?_) id
    simp only [QueueCall.accesses, List.mem_append, List.mem_map, List.mem_filter, List.mem_range] at ha
    rcases ha with ⟨j, ⟨hj, -⟩, rfl⟩ | ha
    · exact ⟨Int.natCast_nonneg j, Int.ofNat_lt.mpr hj⟩
    split at ha
    · cases ha
    · rename_i hlt
      cases List.mem_singleton.mp ha
      exact ⟨⟨hfirst, Int.not_le.mp hlt⟩, (h _).1⟩

/-! ## The calls of a step -/

theorem bounded_keeping : Keeping Proc.Bounded (fun n => n ≤ prioMax) Indexed where
  same := fun hx _ hfp hhfs => by
    unfold Proc.Bounded
    rw [hfp, hhfs]
    exact hx
  hfs := fun _ hx => hx.2.2
  fork_fp := fun _ _ hx hy _ => ⟨hy.1, hy.2.1, hx.2.2⟩
  fork_hfs := fun _ _ hx hy _ => ⟨hx.1, hx.2.1, hy.2.2⟩
  to_fp := fun _ hx => hx
  prio := fun _ _ hx h0 hn => ⟨h0, hn, hx.2.2⟩
  enqueue_fp := fun hq _ p => hq.enqueueAt p _
  enqueue_hfs := fun hq p => hq.enqueueAt p 0
  dequeue := Indexed.fpDequeue

section

variable (h : Sane Proc.Bounded Indexed s)

include h

theorem requeueCalls_sound (p : Slot) : ∀ c ∈ s.requeueCalls p, c.Sound := by
  intro c hc
  have hx := h.entries p
  unfold State.requeueCalls at hc
  split at hc
  · cases List.mem_singleton.mp hc
    exact ⟨h.queues, hx⟩
  · split at hc
    · cases List.mem_singleton.mp hc
      exact ⟨h.queues, hx.1, hx.2.1, rfl⟩
    · cases hc

theorem wakeCalls_sound (chan : Option Chan) (l : List Slot) :
    ∀ c ∈ State.wakeCalls chan l s, c.Sound := by
  induction l generalizing s with
  | nil => exact fun c hc => absurd hc List.not_mem_nil
  | cons p l ih =>
    intro c hc
    rcases List.mem_append.mp hc with hc | hc
    · refine requeueCalls_sound ?_ p c hc
      split
      · exact Keeping.update h p id
      · exact h
    · exact ih (bounded_keeping.wakeRound h chan p) c hc

theorem reparentCalls_sound (p : Slot) (l : List Slot) :
    ∀ c ∈ State.reparentCalls p l s, c.Sound := by
  induction l generalizing s with
  | nil => exact fun c hc => absurd hc List.not_mem_nil
  | cons r l ih =>
    intro c hc
    rcases List.mem_append.mp hc with hc | hc
    · split at hc
      · exact wakeCalls_sound (Keeping.update h r id) _ _ c hc
      · cases hc
    · exact ih (bounded_keeping.reparentRound h p r) c hc

theorem queueCalls_sound (a : Label κ) : ∀ c ∈ s.queueCalls a, c.Sound := by
  intro c hc
  cases a with
  | schedule k =>
    cases List.mem_singleton.mp hc
    exact h.queues
  | yield k =>
    obtain ⟨p, -, hc⟩ := List.mem_flatMap.mp hc
    dsimp only at hc
    split at hc
    · rename_i hlarge
      rw [(h.entries p).2.2] at hlarge
      exact absurd hlarge.2 (by decide)
    · split at hc
      · cases List.mem_singleton.mp hc
        exact ⟨h.queues, h.entries p⟩
      · cases hc
  | forkFinish k =>
    obtain ⟨p, -, hc⟩ := List.mem_flatMap.mp hc
    split at hc
    · rename_i np _
      split at hc
      · cases List.mem_singleton.mp hc
        exact ⟨h.queues, (h.entries p).1, (h.entries p).2.1, (h.entries np).2.2⟩
      · split at hc
        · cases List.mem_singleton.mp hc
          exact ⟨h.queues, (h.entries np).1, (h.entries np).2.1, (h.entries p).2.2⟩
        · cases hc
    · cases hc
  | wakeup n => exact wakeCalls_sound h _ _ c hc
  | kill pid =>
    obtain ⟨p, -, hc⟩ := List.mem_flatMap.mp hc
    exact requeueCalls_sound (Keeping.update h p id) p c hc
  | cvSignal pid =>
    obtain ⟨p, -, rfl⟩ := List.mem_map.mp hc
    exact ⟨h.queues, h.entries p⟩
  | exitFinish k =>
    obtain ⟨p, -, hc⟩ := List.mem_flatMap.mp hc
    rcases List.mem_append.mp hc with hc | hc
    · exact wakeCalls_sound h _ _ c hc
    · exact reparentCalls_sound (bounded_keeping.wakeup1 h _) p _ c hc
  | _ => cases hc

end

/-! ## Runs -/

theorem booted_bounded {root : Nat} {slot : Int → Int → Slot} :
    Sane Proc.Bounded Indexed (booted κ root slot) where
  queues := fun _ => by simp [booted, ReadyQueues.empty]
  entries := fun p => by by_cases hp : p = 0 <;> simp [booted, initcode, blank, hp, Proc.Bounded]

variable [DecidableEq κ]

/-- In a run all accesses are in range exactly when no step hands a process with priority
`PRIO_MAX` to `fp_enqueue`. -/
theorem accesses_inRange_iff (root : Nat) (slot : Int → Int → Slot) (as : List (Label κ)) (t : State κ) :
    Run (Guarded Step fun s a => ∀ c ∈ s.queueCalls a, ∀ x ∈ c.accesses, x.InRange)
        (booted κ root slot) as t ↔
      Run (Guarded Step fun s a => ∀ c ∈ s.queueCalls a, ¬ c.Overflows) (booted κ root slot) as t := by
  refine Run.congr_of_invariant (fun s => Matched s.core ∧ Sane Proc.Bounded Indexed s) ?_ ?_
    ⟨booted_matched, booted_bounded⟩
  · rintro s a t ⟨-, hs⟩
    exact and_congr_left fun _ => forall₂_congr fun c hc => (queueCalls_sound hs a c hc).inRange_iff
  · rintro s a t ⟨hm, hs⟩ ⟨-, hstep⟩
    exact ⟨hm.move (move_of_step hstep),
      bounded_keeping.move hs (fun _ _ _ _ _ hn => hn) (ready_of_step hm hstep)⟩

/-- `init` gives itself priority `PRIO_MAX`; its next `yield` is past the last row. -/
theorem yield_accesses_out_of_range :
    ∃ s, Run Step (booted (Fin 1) 1 fun _ _ => 0) [.schedule 0, .scan 0, .resume 0, .prioSet 0 1 prioMax 0] s ∧
      (s.queueCalls (.yield 0)).flatMap QueueCall.accesses = [.index prioMax, .slot prioMax 0] ∧
      ¬ (Access.index prioMax).InRange := by
  exact Run.found id (fun s => (s.queueCalls (.yield 0)).flatMap QueueCall.accesses =
    [.index prioMax, .slot prioMax 0]) (by decide +kernel) fun _ _ h => ⟨h, fun h => absurd h.2 (by decide)⟩

end Xv6.Ptable
