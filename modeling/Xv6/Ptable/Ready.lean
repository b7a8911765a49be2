import Xv6.Ptable.Placement

/-! # What the steps do to the ready queues

The queues and the fields of an entry that decide what goes into them. As in `Move`, the rest
of the machine is left out, and `ready_of_step` says once what a step can do.
-/

namespace Xv6.Ptable

open Lib Sched

variable {κ : Type}

variable {s t : State κ} {c : κ} {a : Label κ}

/-- The fields of an entry that the scheduler reads. -/
structure Ready where
  state : ProcState
  queueType : Int
  fpPriority : Int
  hfsPriority : Int

def Proc.ready (x : Proc) : Ready := ⟨x.state, x.queueType, x.fpPriority, x.hfsPriority⟩

structure SameReady (s t : State κ) : Prop where
  ready : ∀ p, (t.procs p).ready = (s.procs p).ready
  queues : t.queues = s.queues

theorem SameReady.refl (s : State κ) : SameReady s s := ⟨fun _ => rfl, rfl⟩

theorem SameReady.of_procs (hprocs : t.procs = s.procs) (hqueues : t.queues = s.queues) :
    SameReady s t := ⟨fun p => by rw [hprocs], hqueues⟩

theorem SameReady.update (p : Slot) (f : Proc → Proc) (hf : (f (s.procs p)).ready = (s.procs p).ready)
    (hprocs : t.procs = Function.update s.procs p (f (s.procs p))) (hqueues : t.queues = s.queues) :
    SameReady s t := by
  refine ⟨fun q => ?_, hqueues⟩
  rw [hprocs, Function.update_apply]
  split
  · rename_i hq
    rw [hq, hf]
  · rfl

theorem SameReady.queueType (h : SameReady s t) (p : Slot) :
    (t.procs p).queueType = (s.procs p).queueType := congrArg Ready.queueType (h.ready p)

theorem SameReady.fpPriority (h : SameReady s t) (p : Slot) :
    (t.procs p).fpPriority = (s.procs p).fpPriority := congrArg Ready.fpPriority (h.ready p)

theorem SameReady.hfsPriority (h : SameReady s t) (p : Slot) :
    (t.procs p).hfsPriority = (s.procs p).hfsPriority := congrArg Ready.hfsPriority (h.ready p)

def State.setState (s : State κ) (p : Slot) (st : ProcState) : State κ :=
  s.update p fun x => { x with state := st }

/-- The state after the dequeue of `scheduler()`. -/
def State.dequeued (s : State κ) : State κ := { s with queues := (Sched.fpDequeue s.queues).2 }

variable [DecidableEq κ]

/-- What a step does, as far as the scheduler can tell. -/
inductive ReadyMove (s : State κ) : Label κ → State κ → Prop
  | same {a : Label κ} {t : State κ} (eq : SameReady s t) : ReadyMove s a t
  /-- A state other than `RUNNABLE` becomes another such state. -/
  | settle {a : Label κ} {t : State κ} (p : Slot) (st : ProcState)
      (before : (s.procs p).state ≠ .runnable) (after : st ≠ .runnable)
      (eq : SameReady (s.setState p st) t) : ReadyMove s a t
  /-- The process taken off a queue is not `RUNNABLE`, or the queues are empty. -/
  | pass {c : κ} {t : State κ}
      (stale : ∀ p, (Sched.fpDequeue s.queues).1 = some p → (s.procs p).state ≠ .runnable)
      (eq : SameReady s.dequeued t) : ReadyMove s (.schedule c) t
  | take {c : κ} {t : State κ} {p : Slot} (first : (Sched.fpDequeue s.queues).1 = some p)
      (ready : (s.procs p).state = .runnable) (eq : SameReady (s.dequeued.setState p .running) t)
      (on : (t.cpus c).proc = some p) : ReadyMove s (.schedule c) t
  | pick {c : κ} {t : State κ} {p : Slot} (at_slot : (s.cpus c).pc = .scan p.val)
      (ready : (s.procs p).state = .runnable) (eq : SameReady (s.setState p .running) t)
      (on : (t.cpus c).proc = some p) : ReadyMove s (.scan c) t
  | yield {c : κ} {t : State κ} {p : Slot} (on : (s.cpus c).proc = some p)
      (running : (s.procs p).state = .running) (eq : SameReady (s.yield p) t) : ReadyMove s (.yield c) t
  | finish {c : κ} {t : State κ} {p np : Slot} (on : (s.cpus c).proc = some p)
      (forking : s.doing p = .copied np) (running : (s.procs p).state = .running)
      (embryo : (s.procs np).state = .embryo) (eq : SameReady (s.forkFinish p np) t) :
      ReadyMove s (.forkFinish c) t
  | wakeup {t : State κ} {n : Nat} (eq : SameReady (s.wakeup1 (some (.other n))) t) :
      ReadyMove s (.wakeup n) t
  | kill {t : State κ} {pid : Int} (eq : SameReady (s.kill pid) t) : ReadyMove s (.kill pid) t
  | cvSignal {t : State κ} {pid : Int} (eq : SameReady (s.cvSignal pid) t) :
      ReadyMove s (.cvSignal pid) t
  | prioSet {c : κ} {t : State κ} {p : Slot} {pid priority word : Int} (on : (s.cpus c).proc = some p)
      (running : (s.procs p).state = .running) (eq : SameReady (s.prioSet p pid priority word) t) :
      ReadyMove s (.prioSet c pid priority word) t
  | exit {c : κ} {t : State κ} {p : Slot} (on : (s.cpus c).proc = some p)
      (running : (s.procs p).state = .running) (eq : SameReady (s.exitLocked p) t) :
      ReadyMove s (.exitFinish c) t

theorem ready_schedule (h : s.schedule c = some t) : ReadyMove s (.schedule c) t := by
  unfold State.schedule at h
  split at h
  · obtain ⟨-, h⟩ := locked_eq_some.mp h
    dsimp only at h
    cases hfirst : (Sched.fpDequeue s.queues).1 with
    | none =>
      rw [hfirst] at h
      cases h
      exact .pass (by simp [hfirst]) (.of_procs rfl rfl)
    | some p =>
      rw [hfirst] at h
      dsimp only at h
      split at h
      · rename_i ready
        cases h
        refine .take hfirst ready (.of_procs rfl rfl) ?_
        simp [State.dispatch]
      rename_i stale
      cases h
      refine .pass (fun q hq => ?_) (.of_procs rfl rfl)
      rw [hfirst] at hq
      cases hq
      exact stale
  · cases h

theorem ready_scan (h : s.scan c = some t) : ReadyMove s (.scan c) t := by
  unfold State.scan at h
  split at h
  · rename_i i hpc
    split at h
    · split at h
      · rename_i hi
        split at h
        · rename_i ready
          cases h
          refine .pick (p := ⟨i, hi⟩) hpc ready (.of_procs rfl rfl) ?_
          simp [State.dispatch]
        · cases h
          exact .same (.of_procs rfl rfl)
      · cases h
        exact .same (.of_procs rfl rfl)
    · cases h
  · cases h

theorem ready_resume (h : s.resume c = some t) : ReadyMove s (.resume c) t := by
  unfold State.resume at h
  split at h
  · cases h
  rename_i p _
  split at h
  · split at h
    iterate 3
      · cases h
        exact .same (.of_procs rfl rfl)
    iterate 2
      · cases h
        exact .same (.update p (fun x => { x with chan := none }) rfl rfl rfl)
    · cases h
  · cases h

theorem ready_waitScan (hp : Placed s.core) (h : s.waitScan c = some t) : ReadyMove s (.waitScan c) t := by
  unfold State.waitScan at h
  split at h
  · cases h
  rename_i p on
  have running : (s.procs p).state = .running := hp.running c p on
  split at h
  · cases hz : s.zombieChild p with
    | some q =>
      rw [hz] at h
      cases h
      have hfound := zombieChild_some hz
      refine .settle q .unused (by simp [hfound.2]) (by simp) ⟨fun r => ?_, rfl⟩
      simp only [State.reap, State.setState, State.update_procs]
      split <;> rfl
    | none =>
      rw [hz] at h
      dsimp only at h
      split at h
      · cases h
        exact .same (.of_procs rfl rfl)
      · cases h
        refine .settle p .sleeping (by simp [running]) (by simp) ⟨fun r => ?_, rfl⟩
        simp only [State.switchOut, State.setState, State.update_procs]
        split <;> rfl
  · cases h

theorem ready_forkAlloc (h : Step s (.forkAlloc c) t) : ReadyMove s (.forkAlloc c) t := by
  obtain ⟨p, -, -, -, rfl⟩ := call_locked h
  unfold State.forkAlloc
  split
  · exact .same (.refl s)
  rename_i np hfind
  have free := unused_of_freeSlot hfind
  refine .settle np .embryo (by simp [free]) (by simp) ⟨fun r => ?_, rfl⟩
  simp only [State.setState, State.update_procs]
  split <;> rfl

omit [DecidableEq κ] in
theorem ready_forkFail {p np : Slot} (hnp : (s.procs np).state = .embryo) :
    ReadyMove s a (s.forkFail p np) := by
  refine .settle np .unused (by simp [hnp]) (by simp) ⟨fun r => ?_, rfl⟩
  simp only [State.forkFail, State.setState, State.update_procs]

/-- What a step can do to the ready queues and to the fields that decide what goes in. -/
theorem ready_of_step (hm : Matched s.core) (h : Step s a t) : ReadyMove s a t := by
  obtain ⟨hp, hf⟩ := hm
  cases a with
  | schedule c => exact ready_schedule h
  | scan c => exact ready_scan h
  | resume c => exact ready_resume h
  | forkAlloc c => exact ready_forkAlloc h
  | forkKstackFail c | forkCopyFail c =>
    obtain ⟨p, -, h⟩ := onCpu_eq_some.mp h
    split at h
    · rename_i np forking
      cases h
      exact ready_forkFail (hf.embryo p np (congrArg Doing.child forking))
    · cases h
  | forkInit c | forkInherit c | forkCopy c =>
    obtain ⟨p, -, h⟩ := onCpu_eq_some.mp h
    split at h
    · cases h
      refine .same ⟨fun r => ?_, rfl⟩
      simp only [State.forkInit, State.forkInherit, State.forkCopy, State.update_procs]
      split <;> simp_all [Proc.ready]
    · cases h
  | forkFinish c =>
    obtain ⟨p, on, h⟩ := onCpu_eq_some.mp h
    split at h
    · rename_i np forking
      obtain ⟨-, h⟩ := locked_eq_some.mp h
      cases h
      exact .finish on.1 forking (hp.state_of_runs on)
        (hf.embryo p np (congrArg Doing.child forking)) (.refl _)
    · cases h
  | exitPrepare c =>
    obtain ⟨p, -, -, h⟩ := call_eq_some.mp h
    split at h
    · cases h
    · cases h
      refine .same ⟨fun r => ?_, rfl⟩
      simp only [State.exitPrepare, State.update_procs]
      split <;> simp_all [Proc.ready]
  | exitFinish c =>
    obtain ⟨p, on, h⟩ := onCpu_eq_some.mp h
    split at h
    · obtain ⟨-, h⟩ := locked_eq_some.mp h
      rw [← Option.some.inj h]
      refine .exit on.1 (hp.state_of_runs on) ?_
      generalize s.exitLocked p = u
      exact .of_procs rfl rfl
    · cases h
  | wait c | cvWaitFull c =>
    obtain ⟨p, -, -, -, rfl⟩ := call_locked h
    exact .same (.of_procs rfl rfl)
  | waitScan c => exact ready_waitScan hp h
  | sleep c chan =>
    obtain ⟨p, on, -, -, rfl⟩ := call_locked h
    have running := hp.state_of_runs on
    refine .settle p .sleeping (fun h => ?_) (by simp) ⟨fun r => ?_, rfl⟩
    · exact absurd (running.symm.trans h) (by simp)
    · simp only [State.switchOut, State.setState, State.update_procs]
      split <;> rfl
  | yield c =>
    obtain ⟨p, on, h⟩ := onCpu_eq_some.mp h
    obtain ⟨-, h⟩ := locked_eq_some.mp h
    cases h
    exact .yield on.1 (hp.state_of_runs on) (.of_procs rfl rfl)
  | wakeup chan =>
    obtain ⟨-, h⟩ := locked_eq_some.mp h
    rw [← Option.some.inj h]
    exact .wakeup (.refl _)
  | kill pid =>
    obtain ⟨-, h⟩ := locked_eq_some.mp h
    cases h
    exact .kill (.refl _)
  | prioSet c pid priority word =>
    obtain ⟨p, on, -, -, rfl⟩ := call_locked h
    exact .prioSet on.1 (hp.state_of_runs on) (.refl _)
  | cvWait c =>
    obtain ⟨p, on, -, -, rfl⟩ := call_locked h
    have running := hp.state_of_runs on
    refine .settle p .sleeping (fun h => ?_) (by simp) (.of_procs rfl rfl)
    exact absurd (running.symm.trans h) (by simp)
  | cvSignal pid =>
    obtain ⟨-, h⟩ := locked_eq_some.mp h
    cases h
    exact .cvSignal (.refl _)
  | createAndEnter c =>
    obtain ⟨p, -, -, h⟩ := call_eq_some.mp h
    obtain ⟨-, h⟩ := locked_eq_some.mp h
    unfold State.doCe at h
    split at h
    · cases h
      exact .same (.refl _)
    · obtain ⟨id, -, rfl⟩ := Option.map_eq_some_iff.mp h
      refine .same ⟨fun r => ?_, rfl⟩
      simp only [State.update_procs]
      split <;> simp_all [Proc.ready]
  | store c w =>
    obtain ⟨p, -, -, h⟩ := call_eq_some.mp h
    cases h
    exact .same (.update p w.apply (by cases w <;> rfl) rfl rfl)

/-! ## Properties of all entries -/

/-- A property of `queueType` and of the priorities that the calls keep, where `ok` is what they
need of a priority handed to `prio_set`. -/
structure Policy (good : Proc → Prop) (ok : Int → Prop) : Prop where
  same : ∀ {x y : Proc}, good x → y.queueType = x.queueType → y.fpPriority = x.fpPriority →
    y.hfsPriority = x.hfsPriority → good y
  hfs : ∀ x, good x → x.hfsPriority = 0
  fork_fp : ∀ x y, good x → good y → y.queueType = 0 →
    good { x with fpPriority := y.fpPriority, queueType := 0 }
  fork_hfs : ∀ x y, good x → good y → y.queueType = 1 →
    good { x with hfsPriority := y.hfsPriority, queueType := 1 }
  to_fp : ∀ x, good x → good { x with queueType := 0 }
  prio : ∀ x n, good x → 0 ≤ n → ok n → good { x with fpPriority := n }

/-- A policy together with a property of the ready queues that holds on when an entry is put in
or taken out. -/
structure Keeping (good : Proc → Prop) (ok : Int → Prop) (room : ReadyQueues Slot → Prop) : Prop
    extends Policy good ok where
  enqueue_fp : ∀ {q x}, room q → good x → ∀ p : Slot, room (enqueueAt q p x.fpPriority).2
  enqueue_hfs : ∀ {q}, room q → ∀ p : Slot, room (enqueueAt q p 0).2
  dequeue : ∀ {q}, room q → room (fpDequeue q).2

structure Sane (good : Proc → Prop) (room : ReadyQueues Slot → Prop) (s : State κ) : Prop where
  queues : room s.queues
  entries : ∀ p, good (s.procs p)

namespace Keeping

omit [DecidableEq κ]

variable {good : Proc → Prop} {ok : Int → Prop} {room : ReadyQueues Slot → Prop} {s t : State κ}

theorem update (h : Sane good room s) (p : Slot) {f : Proc → Proc}
    (hf : good (s.procs p) → good (f (s.procs p))) : Sane good room (s.update p f) := by
  refine ⟨h.queues, fun q => ?_⟩
  rw [State.update_procs]
  split
  · rename_i hq
    rw [hq]
    exact hf (h.entries p)
  · exact h.entries q

variable (hk : Keeping good ok room) (h : Sane good room s)

include hk h

theorem sameReady (heq : SameReady s t) : Sane good room t :=
  ⟨heq.queues ▸ h.queues, fun p =>
    hk.same (h.entries p) (heq.queueType p) (heq.fpPriority p) (heq.hfsPriority p)⟩

theorem setState (p : Slot) (st : ProcState) : Sane good room (s.setState p st) :=
  update h p fun hx => hk.same hx rfl rfl rfl

theorem fpEnqueue (p : Slot) : Sane good room (s.fpEnqueue p) := by
  refine ⟨?_, h.entries⟩
  unfold State.fpEnqueue Sched.fpEnqueue
  split
  · exact h.queues
  · exact hk.enqueue_fp h.queues (h.entries p) p

theorem hfsEnqueue (p : Slot) : Sane good room (s.hfsEnqueue p) := by
  have hzero := fun q => hk.hfs _ (h.entries q)
  refine ⟨?_, fun q => ?_⟩
  · unfold State.hfsEnqueue Sched.hfsEnqueue
    rw [hzero]
    split
    · exact h.queues
    · exact hk.enqueue_hfs h.queues p
  · rw [State.hfsEnqueue_procs]
    split
    · refine hk.same (h.entries q) rfl rfl ?_
      simp [clampHfs, hzero]
    · exact h.entries q

theorem requeue (p : Slot) : Sane good room (s.requeue p) := by
  unfold State.requeue
  split
  · exact hk.fpEnqueue h p
  · split
    · have hzero := hk.hfs _ (h.entries p)
      exact hk.hfsEnqueue (update h p fun hx => hk.same hx rfl rfl hzero.symm) p
    · exact h

theorem wakeRound (chan : Option Chan) (p : Slot) : Sane good room (State.wakeRound chan s p) := by
  unfold State.wakeRound
  split
  · exact hk.requeue (hk.setState h p .runnable) p
  · exact hk.requeue h p

theorem wakeup1 (chan : Option Chan) : Sane good room (s.wakeup1 chan) :=
  foldl_invariant (Sane good room) (State.wakeRound chan) (fun _ p hs => hk.wakeRound hs chan p) _ h

theorem reparentRound (p r : Slot) : Sane good room (State.reparentRound p s r) := by
  have hparent := update (f := fun x => { x with parent := some s.initproc }) h r
    fun hx => hk.same hx rfl rfl rfl
  unfold State.reparentRound
  split
  · dsimp only
    split
    · exact hk.wakeup1 hparent _
    · exact hparent
  · exact h

theorem exitLocked (p : Slot) : Sane good room (s.exitLocked p) := by
  have hloop := foldl_invariant (Sane good room) (State.reparentRound p)
    (fun _ r hs => hk.reparentRound hs p r) (List.finRange nproc)
    (hk.wakeup1 h ((s.procs p).parent.map Chan.proc))
  unfold State.exitLocked
  dsimp only
  generalize (List.finRange nproc).foldl (State.reparentRound p) _ = v at hloop ⊢
  exact hk.sameReady (hk.setState hloop p .zombie) (.of_procs rfl rfl)

theorem kill (pid : Int) : Sane good room (s.kill pid) := by
  unfold State.kill
  split
  · exact h
  · rename_i p _
    exact hk.requeue (update h p fun hx => hk.same hx rfl rfl rfl) p

theorem cvSignal (pid : Int) : Sane good room (s.cvSignal pid) := by
  unfold State.cvSignal
  split
  · exact h
  · rename_i p _
    exact hk.fpEnqueue (hk.setState h p .runnable) p

theorem forkFinish (p np : Slot) : Sane good room (s.forkFinish p np) := by
  have hu := hk.setState h np .runnable
  refine hk.sameReady (s := (s.setState np .runnable).forkEnqueue p np) ?_ (.of_procs rfl rfl)
  generalize s.setState np .runnable = u at hu ⊢
  unfold State.forkEnqueue
  dsimp only
  split
  · rename_i hfp
    exact hk.fpEnqueue (update hu np fun hx => hk.fork_fp _ _ hx (hu.entries p) hfp) np
  · split
    · rename_i hhfs
      exact hk.hfsEnqueue (update hu np fun hx => hk.fork_hfs _ _ hx (hu.entries p) hhfs) np
    · exact hu

theorem yield (p : Slot) : Sane good room (s.yield p) := by
  have hu := hk.setState h p .runnable
  unfold State.setState at hu
  unfold State.yield
  generalize s.update p (fun x => { x with state := .runnable }) = u at hu ⊢
  dsimp only
  split
  · rename_i hlarge
    rw [hk.hfs _ (hu.entries p)] at hlarge
    exact absurd hlarge.2 (by decide)
  · split
    · exact hk.fpEnqueue hu p
    · exact hu

theorem prioSet (p : Slot) {pid priority word : Int} (hprio : priority ≤ prioMax → ok priority) :
    Sane good room (s.prioSet p pid priority word) := by
  unfold State.prioSet
  split
  · exact h
  have hu := update (f := fun x => { x with queueType := 0 }) h p (hk.to_fp _)
  generalize s.update p (fun x => { x with queueType := 0 }) = u at hu ⊢
  have hset : ∀ r, Sane good room (u.update r fun x => { x with fpPriority := priority }) :=
    fun r => update hu r fun hx => hk.prio _ _ hx (by omega) (hprio (by omega))
  dsimp only
  split
  · exact hu
  split
  · exact hset p
  split
  · exact hu
  · split
    · exact hset _
    · exact hu

theorem move (ha : ∀ c pid priority word, a = .prioSet c pid priority word → priority ≤ prioMax →
    ok priority) (hmove : ReadyMove s a t) : Sane good room t := by
  have hdequeued : Sane good room s.dequeued := ⟨hk.dequeue h.queues, h.entries⟩
  cases hmove with
  | same eq => exact hk.sameReady h eq
  | settle p st _ _ eq => exact hk.sameReady (hk.setState h p st) eq
  | pass _ eq => exact hk.sameReady hdequeued eq
  | @take c t p _ _ eq => exact hk.sameReady (hk.setState hdequeued p .running) eq
  | @pick c t p _ _ eq => exact hk.sameReady (hk.setState h p .running) eq
  | @yield c t p _ _ eq => exact hk.sameReady (hk.yield h p) eq
  | @finish c t p np _ _ _ _ eq => exact hk.sameReady (hk.forkFinish h p np) eq
  | wakeup eq => exact hk.sameReady (hk.wakeup1 h _) eq
  | kill eq => exact hk.sameReady (hk.kill h _) eq
  | cvSignal eq => exact hk.sameReady (hk.cvSignal h _) eq
  | @prioSet c t p pid priority word _ _ eq =>
    exact hk.sameReady (hk.prioSet h p (ha c pid priority word rfl)) eq
  | @exit c t p _ _ eq => exact hk.sameReady (hk.exitLocked h p) eq

end Keeping

omit [DecidableEq κ] in
theorem Policy.move {good : Proc → Prop} {ok : Int → Prop} (hpol : Policy good ok)
    (h : ∀ p, good (s.procs p))
    (ha : ∀ c pid priority word, a = .prioSet c pid priority word → ok priority)
    (hmove : ReadyMove s a t) : ∀ p, good (t.procs p) := by
  have hk : Keeping good ok fun _ => True := ⟨hpol, fun _ _ _ => trivial, fun _ _ => trivial, fun _ => trivial⟩
  exact (hk.move ⟨trivial, h⟩ (fun c pid priority word heq _ => ha c pid priority word heq) hmove).entries

end Xv6.Ptable
