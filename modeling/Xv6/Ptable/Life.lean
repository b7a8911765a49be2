import Mathlib.Order.Fin.Basic
import Mathlib.Tactic.Common
import Xv6.Lib.Fold
import Xv6.Ptable.Model

/-! # The life cycle of processes

What the steps of the machine do to states, parents, sleep channels, namespaces and
processors, with the ready queues and the remaining fields left out. `Move` says it once for
all invariants below; `move_of_step` ties it to the machine.
-/

namespace Xv6.Ptable

open Function (update)

variable {f : Proc → Proc}

/-! ## The abstract state -/

/-- The fields of an entry that the life cycle is about. -/
structure Life where
  state : ProcState
  pid : Int
  parent : Option Slot
  chan : Option Chan
  ofile : Fin nofile → Option Nat
  inContainer : Int
  nameSpace : Int

def Proc.life (x : Proc) : Life :=
  ⟨x.state, x.pid, x.parent, x.chan, x.ofile, x.inContainer, x.nameSpace⟩

structure Core (κ : Type) where
  life : Slot → Life
  initproc : Slot
  lock : Option κ
  cpus : κ → Cpu
  doing : Slot → Doing
  parked : Slot → Parked

variable {κ : Type} {s : State κ} {c : Core κ} {p q : Slot} {chan : Option Chan} {x : Life}

def State.core (s : State κ) : Core κ :=
  ⟨fun p => (s.procs p).life, s.initproc, s.lock, s.cpus, s.doing, s.parked⟩

@[irreducible] def Core.entry (c : Core κ) (p : Slot) (f : Life → Life) : Slot → Life :=
  update c.life p (f (c.life p))

theorem Core.entry_apply (c : Core κ) (p q : Slot) (f : Life → Life) :
    c.entry p f q = if q = p then f (c.life q) else c.life q := by
  by_cases h : q = p
  · subst h
    simp [Core.entry]
  · simp [Core.entry, h]

def Core.set (c : Core κ) (p : Slot) (f : Life → Life) : Core κ := { c with life := c.entry p f }

theorem Core.set_life (f : Life → Life) : (c.set p f).life q = if q = p then f (c.life q) else c.life q :=
  c.entry_apply p q f

/-- The processor is in the scheduler, not in a process. -/
def CpuPc.Idle : CpuPc → Prop
  | .idle | .scan _ => True
  | _ => False

/-- Places a process is at while its sleep channel is null. -/
def Parked.Plain : Parked → Prop
  | .slept | .waiting | .exited => False
  | _ => True

/-- The table after the locked part of `exit` by `p`. -/
structure ExitLife (c : Core κ) (p : Slot) (l : Slot → Life) : Prop where
  frame : ∀ q, l q = { c.life q with state := (l q).state, parent := (l q).parent }
  parent : ∀ q, (l q).parent =
    if (c.life q).parent = some p then some c.initproc else (c.life q).parent
  self : (l p).state = .zombie
  state : ∀ q, q ≠ p → (l q).state = (c.life q).state ∨
    (c.life q).state = .sleeping ∧ (l q).state = .runnable
  wakesParent : ∀ q, q ≠ p → (c.life q).chan = (c.life p).parent.map Chan.proc →
    (l q).state ≠ .sleeping
  wakesInit : ∀ x q, q ≠ p → (c.life x).parent = some p → (c.life x).state = .zombie →
    (c.life q).chan = some (.proc c.initproc) → (l q).state ≠ .sleeping

/-- What a step means for the history of processes. -/
inductive Event
  | quiet
  | alloc (p np : Slot)
  | inherit (p np : Slot)
  | enter (p : Slot)
  | exit (p : Slot)
  | reap (p q : Slot)
  deriving DecidableEq

def Core.Runs [DecidableEq κ] (c : Core κ) (k : κ) (p : Slot) : Prop :=
  (c.cpus k).proc = some p ∧ c.parked p = .onCpu

/-- `p` has given processor `k` back to the scheduler, which holds the lock. -/
@[simp] def Core.out [DecidableEq κ] (c : Core κ) (k : κ) (p : Slot) (w : Parked) : Core κ :=
  { c with
    cpus := update c.cpus k ⟨none, State.afterRun (c.cpus k).pc⟩
    lock := some k
    parked := update c.parked p w }

section Moves

variable [DecidableEq κ]

inductive Move (c : Core κ) : Event → Core κ → Prop
  | stutter : Move c .quiet c
  | wake {l : Slot → Life} (woken : ∀ q, l q = c.life q ∨
      (c.life q).state = .sleeping ∧ l q = { c.life q with state := .runnable }) :
      Move c .quiet { c with life := l }
  | dispatch {k : κ} {p : Slot} {pc : CpuPc} (idle : (c.cpus k).pc.Idle)
      (ready : (c.life p).state = .runnable) (busy : ¬ pc.Idle) :
      Move c .quiet { c with
        life := c.entry p fun x => { x with state := .running }
        cpus := update c.cpus k ⟨some p, pc⟩
        lock := some k }
  | goto {k : κ} {pc : CpuPc} {lock : Option κ} (idle : (c.cpus k).pc.Idle) (still : pc.Idle) :
      Move c .quiet { c with cpus := update c.cpus k ⟨none, pc⟩, lock := lock }
  | shift {k : κ} {p : Slot} {w : Parked} {lock : Option κ} (on : (c.cpus k).proc = some p)
      (from_plain : (c.parked p).Plain) (to_plain : w.Plain) :
      Move c .quiet { c with lock := lock, parked := update c.parked p w }
  | awake {k : κ} {p : Slot} {w : Parked} {lock : Option κ} (on : (c.cpus k).proc = some p)
      (to_plain : w.Plain) :
      Move c .quiet { c with
        life := c.entry p fun x => { x with chan := none }
        lock := lock
        parked := update c.parked p w }
  | yield {k : κ} {p : Slot} {st : ProcState} {w : Parked} (on : c.Runs k p)
      (into : st = .runnable ∧ w = .yielded ∨ st = .sleeping ∧ w = .cvWaiting) :
      Move c .quiet ({ c with life := c.entry p fun x => { x with state := st } }.out k p w)
  | sleep {k : κ} {p : Slot} {ch : Chan} {w : Parked} (on : (c.cpus k).proc = some p)
      (into : w = .slept ∨ w = .waiting ∧ ch = .proc p ∧
        ∀ q, (c.life q).parent = some p → (c.life q).state ≠ .zombie) :
      Move c .quiet
        ({ c with life := c.entry p fun x => { x with chan := some ch, state := .sleeping } }.out k p w)
  | alloc {k : κ} {p np : Slot} {n : Int} (on : c.Runs k p) (user : c.doing p = .user)
      (free : (c.life np).state = .unused) :
      Move c (.alloc p np) { c with
        life := c.entry np fun x => { x with state := .embryo, pid := n }
        doing := update c.doing p (.allocated np) }
  | fail {k : κ} {p np : Slot} (on : c.Runs k p)
      (forking : c.doing p = .allocated np ∨ c.doing p = .inherited np) :
      Move c .quiet { c with
        life := c.entry np fun x => { x with state := .unused }
        doing := update c.doing p .user }
  | init {k : κ} {p np : Slot} (on : c.Runs k p) (forking : c.doing p = .allocated np) :
      Move c .quiet { c with
        life := c.entry np fun x => { x with inContainer := 0, nameSpace := 0 }
        doing := update c.doing p (.initialised np) }
  | inherit {k : κ} {p np : Slot} (on : c.Runs k p) (forking : c.doing p = .initialised np) :
      Move c (.inherit p np) { c with
        life := c.entry np fun x =>
          { x with inContainer := (c.life p).inContainer, nameSpace := (c.life p).nameSpace }
        doing := update c.doing p (.inherited np) }
  | adopt {k : κ} {p np : Slot} {files : Fin nofile → Option Nat} (on : c.Runs k p)
      (forking : c.doing p = .inherited np) :
      Move c .quiet { c with
        life := c.entry np fun x => { x with parent := some p, ofile := files }
        doing := update c.doing p (.copied np) }
  | finish {k : κ} {p np : Slot} (on : c.Runs k p) (forking : c.doing p = .copied np) :
      Move c .quiet { c with
        life := c.entry np fun x => { x with state := .runnable }
        doing := update (update c.doing np .user) p .user
        parked := update c.parked np .newborn }
  | prepare {k : κ} {p : Slot} (on : c.Runs k p) (user : c.doing p = .user) (mortal : p ≠ c.initproc) :
      Move c .quiet { c with
        life := c.entry p fun x => { x with ofile := fun _ => none }
        doing := update c.doing p .exiting }
  | exit {k : κ} {p : Slot} {l : Slot → Life} (on : c.Runs k p) (exiting : c.doing p = .exiting)
      (left : ExitLife c p l) :
      Move c (.exit p) ({ c with life := l, doing := update c.doing p .user }.out k p .exited)
  | reap {k : κ} {p q : Slot} {lock : Option κ} (on : (c.cpus k).proc = some p)
      (scanning : c.parked p = .scanning) (dead : (c.life q).state = .zombie)
      (child : (c.life q).parent = some p) :
      Move c (.reap p q) { c with
        life := c.entry q fun x => { x with state := .unused, pid := 0, parent := none }
        lock := lock
        parked := update c.parked p .onCpu }
  | enter {k : κ} {p : Slot} {id : Int} (on : c.Runs k p) (user : c.doing p = .user)
      (outside : (c.life p).inContainer = 0)
      (fresh : ∀ q, (c.life q).state ≠ .unused → (c.life q).nameSpace ≠ id) :
      Move c (.enter p) { c with
        life := c.entry p fun x => { x with inContainer := 1, nameSpace := id } }
  | store {k : κ} {p : Slot} {files : Fin nofile → Option Nat} (on : c.Runs k p)
      (user : c.doing p = .user) :
      Move c .quiet { c with life := c.entry p fun x => { x with ofile := files } }

theorem Move.of_eq {c d d' : Core κ} {e : Event} (h : Move c e d) (heq : d' = d) : Move c e d' :=
  heq ▸ h

end Moves

/-! ## Updates, queues and wake-ups -/

theorem State.life_update (s : State κ) (p : Slot) (g : Life → Life)
    (h : (f (s.procs p)).life = g (s.procs p).life) : (s.update p f).core.life = s.core.entry p g := by
  funext q
  rw [Core.entry_apply]
  by_cases hq : q = p
  · subst hq
    simp [State.core, State.update, h]
  · simp [State.core, State.update, hq]

theorem State.core_update (s : State κ) (p : Slot) (g : Life → Life)
    (h : (f (s.procs p)).life = g (s.procs p).life) : (s.update p f).core = s.core.set p g := by
  unfold Core.set
  rw [← s.life_update p g h]
  rfl

theorem Core.set_id : c.set p id = c := by
  unfold Core.set Core.entry
  rw [id, Function.update_eq_self]

/-- A store to fields outside the life cycle does not show. -/
theorem State.core_update_id (s : State κ) (p : Slot) (h : (f (s.procs p)).life = (s.procs p).life) :
    (s.update p f).core = s.core := by
  rw [s.core_update p id h, Core.set_id]

/-- The two hold the same but for entries and queues. -/
structure SameRest (s t : State κ) : Prop where
  nextpid : t.nextpid = s.nextpid
  namespaceId : t.namespaceId = s.namespaceId
  initproc : t.initproc = s.initproc
  lock : t.lock = s.lock
  cpus : t.cpus = s.cpus
  doing : t.doing = s.doing
  parked : t.parked = s.parked

theorem SameRest.refl (s : State κ) : SameRest s s := ⟨rfl, rfl, rfl, rfl, rfl, rfl, rfl⟩

theorem SameRest.trans {s t u : State κ} (h : SameRest s t) (h' : SameRest t u) : SameRest s u :=
  ⟨h'.nextpid.trans h.nextpid, h'.namespaceId.trans h.namespaceId, h'.initproc.trans h.initproc,
    h'.lock.trans h.lock, h'.cpus.trans h.cpus, h'.doing.trans h.doing, h'.parked.trans h.parked⟩

theorem SameRest.core {s t : State κ} (h : SameRest s t) {l : Slot → Life}
    (hl : ∀ p, (t.procs p).life = l p) : t.core = { s.core with life := l } := by
  unfold State.core
  rw [h.initproc, h.lock, h.cpus, h.doing, h.parked, ← funext hl]

theorem State.update_procs :
    (s.update p f).procs q = if q = p then f (s.procs q) else s.procs q := by
  by_cases h : q = p
  · subst h
    simp [State.update]
  · simp [State.update, h]

/-- What `prio_set` does to the caller before its checks. -/
abbrev State.underFp (s : State κ) (p : Slot) : State κ := s.update p fun x => { x with queueType := 0 }

theorem policy_procs (s : State κ) (p q : Slot) :
    ((s.underFp p).procs q).pid = (s.procs q).pid ∧ ((s.underFp p).procs q).parent = (s.procs q).parent ∧
      ((s.underFp p).procs q).fpPriority = (s.procs q).fpPriority := by
  rw [State.update_procs]
  split <;> exact ⟨rfl, rfl, rfl⟩

theorem policy_findPid (s : State κ) (p : Slot) (pid : Int) : (s.underFp p).findPid pid = s.findPid pid := by
  unfold State.findPid
  simp only [(policy_procs s p _).1]

def clampHfs (x : Proc) : Int :=
  if x.state = .runnable ∧ x.hfsPriority > hfsPrioMax then hfsPrioMax else x.hfsPriority

theorem State.hfsEnqueue_procs : (s.hfsEnqueue p).procs q =
    if q = p then { s.procs q with hfsPriority := clampHfs (s.procs q) } else s.procs q := by
  by_cases hq : q = p
  · subst hq
    simp only [State.hfsEnqueue, State.update, Function.update_self, if_pos]
    unfold Sched.hfsEnqueue clampHfs
    by_cases hs : (s.procs q).state = .runnable
    · simp [hs]
    · simp [hs]
  · simp [State.hfsEnqueue, State.update, hq]

/-- The effect of the branches on `queueType` on an entry. -/
def requeueProc (x : Proc) : Proc :=
  if x.queueType = 1 then { x with hfsPriority := 0 } else x

theorem State.requeue_procs :
    (s.requeue p).procs q = if q = p then requeueProc (s.procs q) else s.procs q := by
  unfold State.requeue requeueProc
  by_cases hq : q = p
  · subst hq
    split
    · rename_i h0
      simp [h0, State.fpEnqueue]
    · split
      · rename_i h1
        simp [State.hfsEnqueue_procs, State.update_procs, clampHfs, h1]
      · simp
  · rw [if_neg hq]
    split
    · rfl
    · split
      · simp [State.hfsEnqueue_procs, State.update_procs, hq]
      · rfl

theorem State.requeue_rest (s : State κ) (p : Slot) : SameRest s (s.requeue p) := by
  unfold State.requeue
  split
  · exact ⟨rfl, rfl, rfl, rfl, rfl, rfl, rfl⟩
  · split <;> exact ⟨rfl, rfl, rfl, rfl, rfl, rfl, rfl⟩

/-- The effect of a round of `wakeup1` on an entry. -/
def wakeProc (chan : Option Chan) (x : Proc) : Proc :=
  requeueProc (if x.state = .sleeping ∧ x.chan = chan then { x with state := .runnable } else x)

theorem State.wakeRound_procs (chan : Option Chan) (s : State κ) (p q : Slot) :
    (State.wakeRound chan s p).procs q = if q = p then wakeProc chan (s.procs q) else s.procs q := by
  unfold State.wakeRound wakeProc
  rw [State.requeue_procs]
  by_cases hq : q = p
  · subst hq
    by_cases h : (s.procs q).state = .sleeping ∧ (s.procs q).chan = chan
    · simp [State.update_procs, h]
    · simp [h]
  · by_cases h : (s.procs p).state = .sleeping ∧ (s.procs p).chan = chan
    · simp [State.update_procs, h, hq]
    · simp [h, hq]

theorem State.wakeRound_rest (chan : Option Chan) (s : State κ) (p : Slot) :
    SameRest s (State.wakeRound chan s p) := by
  unfold State.wakeRound
  refine SameRest.trans ?_ (State.requeue_rest _ p)
  split <;> exact ⟨rfl, rfl, rfl, rfl, rfl, rfl, rfl⟩

theorem State.wakeup1_procs :
    (s.wakeup1 chan).procs q = wakeProc chan (s.procs q) := by
  have h := Lib.foldl_own_entry State.procs (State.wakeRound chan) (wakeProc chan)
    (State.wakeRound_procs chan) (List.nodup_finRange nproc) s q
  rw [if_pos (List.mem_finRange q)] at h
  unfold State.wakeup1
  exact h

theorem State.wakeup1_rest (s : State κ) (chan : Option Chan) : SameRest s (s.wakeup1 chan) := by
  unfold State.wakeup1
  exact Lib.foldl_invariant (SameRest s) (State.wakeRound chan)
    (fun t p ht => ht.trans (State.wakeRound_rest chan t p)) (List.finRange nproc) (SameRest.refl s)

/-- The effect of `wakeup1` on the life of a process. -/
def wakeLife (chan : Option Chan) (x : Life) : Life :=
  if x.state = .sleeping ∧ x.chan = chan then { x with state := .runnable } else x

def Core.wakeAll (c : Core κ) (chan : Option Chan) : Core κ :=
  { c with life := fun q => wakeLife chan (c.life q) }

theorem requeueProc_life (x : Proc) : (requeueProc x).life = x.life := by
  unfold requeueProc
  split <;> rfl

theorem wakeProc_life (x : Proc) :
    (wakeProc chan x).life = wakeLife chan x.life := by
  unfold wakeProc wakeLife
  rw [requeueProc_life]
  by_cases h : x.state = .sleeping ∧ x.chan = chan
  · rw [if_pos h]
    exact (if_pos h).symm
  · rw [if_neg h]
    exact (if_neg h).symm

theorem State.core_wakeup1 (s : State κ) (chan : Option Chan) :
    (s.wakeup1 chan).core = s.core.wakeAll chan := by
  refine (s.wakeup1_rest chan).core fun q => ?_
  rw [State.wakeup1_procs, wakeProc_life]
  rfl

theorem State.core_fpEnqueue : (s.fpEnqueue p).core = s.core := rfl

theorem State.core_requeue : (s.requeue p).core = s.core := by
  refine (s.requeue_rest p).core fun q => ?_
  rw [State.requeue_procs]
  split
  · exact requeueProc_life _
  · rfl

theorem State.core_hfsEnqueue : (s.hfsEnqueue p).core = s.core := by
  let r := Sched.hfsEnqueue s.queues p (s.procs p).state (s.procs p).hfsPriority
  have h : (s.update p fun x => { x with hfsPriority := r.2.2 }).core = s.core :=
    s.core_update_id p rfl
  exact h

/-! ## The loop of `exit` -/

theorem wakeLife_parent : (wakeLife chan x).parent = x.parent := by
  unfold wakeLife
  split <;> rfl

theorem wakeLife_chan : (wakeLife chan x).chan = x.chan := by
  unfold wakeLife
  split <;> rfl

theorem wakeLife_zombie (chan : Option Chan) (x : Life) :
    (wakeLife chan x).state = .zombie ↔ x.state = .zombie := by
  unfold wakeLife
  split
  · rename_i h
    simp [h.1]
  · rfl

theorem wakeLife_cases (chan : Option Chan) (x : Life) :
    wakeLife chan x = x ∨ x.state = .sleeping ∧ wakeLife chan x = { x with state := .runnable } := by
  unfold wakeLife
  split
  · rename_i h
    exact .inr ⟨h.1, rfl⟩
  · exact .inl rfl

theorem wakeLife_awake {chan : Option Chan} {x : Life} (h : x.chan = chan) :
    (wakeLife chan x).state ≠ .sleeping := by
  unfold wakeLife
  split
  · simp
  · rename_i hne
    exact fun hs => hne ⟨hs, h⟩

def reparent (p init : Slot) (x : Life) : Life :=
  if x.parent = some p then { x with parent := some init } else x

theorem reparentRound_core (i : Slot) :
    (State.reparentRound p s i).core =
      if (s.core.life i).parent = some p ∧ (s.core.life i).state = .zombie then
        (s.core.set i (reparent p s.initproc)).wakeAll (some (.proc s.initproc))
      else s.core.set i (reparent p s.initproc) := by
  unfold State.reparentRound
  by_cases hpar : (s.procs i).parent = some p
  · have hcore : (s.update i fun x => { x with parent := some s.initproc }).core =
        s.core.set i (reparent p s.initproc) :=
      s.core_update i _ (if_pos hpar).symm
    rw [if_pos hpar]
    by_cases hz : (s.procs i).state = .zombie
    · have hz' : ((s.update i fun x => { x with parent := some s.initproc }).procs i).state = .zombie := by
        rw [State.update_procs, if_pos rfl]
        exact hz
      rw [if_pos hz', State.core_wakeup1, hcore]
      exact (if_pos ⟨hpar, hz⟩).symm
    · have hz' : ((s.update i fun x => { x with parent := some s.initproc }).procs i).state ≠ .zombie := by
        rw [State.update_procs, if_pos rfl]
        exact hz
      rw [if_neg hz', hcore]
      exact (if_neg fun h => hz h.2).symm
  · have hno : ¬ ((s.core.life i).parent = some p ∧ (s.core.life i).state = .zombie) :=
      fun h => hpar h.1
    rw [if_neg hpar, if_neg hno]
    have hid : reparent p s.initproc (s.core.life i) = s.core.life i := if_neg hpar
    unfold Core.set Core.entry
    rw [hid, Function.update_eq_self]

/-- What the rounds of the loop for the slots of `l` have done. -/
structure Reparented (p : Slot) (l : List Slot) (c d : Core κ) : Prop where
  rest : d = { c with life := d.life }
  frame : ∀ q, d.life q = { c.life q with state := (d.life q).state, parent := (d.life q).parent }
  parent : ∀ q, (d.life q).parent =
    if q ∈ l ∧ (c.life q).parent = some p then some c.initproc else (c.life q).parent
  state : ∀ q, (d.life q).state = (c.life q).state ∨
    (c.life q).state = .sleeping ∧ (d.life q).state = .runnable
  wakes : ∀ x ∈ l, (c.life x).parent = some p → (c.life x).state = .zombie →
    ∀ q, (c.life q).chan = some (.proc c.initproc) → (d.life q).state ≠ .sleeping

theorem reparented_nil (p : Slot) (c : Core κ) : Reparented p [] c c where
  rest := rfl
  frame := fun _ => rfl
  parent := by simp
  state := fun _ => .inl rfl
  wakes := by simp

theorem reparent_parent {init : Slot} :
    (reparent p init x).parent = if x.parent = some p then some init else x.parent := by
  unfold reparent
  split <;> rfl

theorem reparent_frame {init : Slot} :
    reparent p init x = { x with parent := (reparent p init x).parent } := by
  unfold reparent
  split <;> rfl

theorem reparentRound_spec (p : Slot) (s : State κ) (i : Slot) :
    Reparented p [i] s.core (State.reparentRound p s i).core := by
  have hset : ∀ q, (s.core.set i (reparent p s.initproc)).life q =
      { s.core.life q with
        parent := if q = i ∧ (s.core.life q).parent = some p then some s.initproc
          else (s.core.life q).parent } := by
    intro q
    rw [Core.set_life]
    by_cases hq : q = i
    · rw [if_pos hq, reparent_frame, reparent_parent]
      simp [hq]
    · simp [hq]
  rw [reparentRound_core]
  split
  · refine ⟨rfl, fun q => ?_, fun q => ?_, fun q => ?_, fun x _ _ _ q hq => ?_⟩
    all_goals simp only [Core.wakeAll, hset]
    · rcases wakeLife_cases (some (.proc s.initproc)) _ with h | ⟨_, h⟩ <;> rw [h]
    · rw [wakeLife_parent]
      by_cases hq : q = i <;> simp [State.core, hq]
    · rcases wakeLife_cases (some (.proc s.initproc)) _ with h | ⟨hs, h⟩ <;> rw [h]
      · exact .inl rfl
      · exact .inr ⟨hs, rfl⟩
    · exact wakeLife_awake hq
  · rename_i hno
    refine ⟨rfl, fun q => ?_, fun q => ?_, fun q => ?_, fun x hx hpar hz => ?_⟩
    · rw [hset]
    · rw [hset]
      by_cases hq : q = i <;> simp [State.core, hq]
    · rw [hset]
      exact .inl rfl
    · rw [List.mem_singleton.mp hx] at hpar hz
      exact absurd ⟨hpar, hz⟩ hno

theorem Reparented.cons {p i : Slot} {l : List Slot} {c d e : Core κ} (h : Reparented p [i] c d)
    (h' : Reparented p l d e) (hi : i ∉ l) : Reparented p (i :: l) c e := by
  have hinit : d.initproc = c.initproc := by rw [h.rest]
  have hparent : ∀ q ∈ l, (d.life q).parent = (c.life q).parent := by
    intro q hq
    have hne : q ≠ i := fun heq => hi (heq ▸ hq)
    rw [h.parent]
    simp [hne]
  have hchan : ∀ q, (d.life q).chan = (c.life q).chan := fun q => by rw [h.frame]
  refine ⟨?_, fun q => ?_, fun q => ?_, fun q => ?_, fun x hx hpar hz q hq => ?_⟩
  · rw [h'.rest, h.rest]
  · rw [h'.frame, h.frame]
  · rw [h'.parent, hinit]
    by_cases hq : q ∈ l
    · rw [hparent q hq]
      simp [hq]
    · rw [h.parent]
      simp [hq]
  · rcases h'.state q with heq | ⟨hs, hr⟩
    · rw [heq]
      exact h.state q
    · rcases h.state q with heq | ⟨_, hr'⟩
      · exact .inr ⟨heq ▸ hs, hr⟩
      · rw [hr'] at hs
        cases hs
  · rcases List.mem_cons.mp hx with rfl | hx
    · have hawake := h.wakes x (List.mem_singleton.mpr rfl) hpar hz q hq
      rcases h'.state q with heq | ⟨hs, _⟩
      · rw [heq]
        exact hawake
      · exact absurd hs hawake
    have hz' : (d.life x).state = .zombie := by
      rcases h.state x with heq | ⟨hs, _⟩
      · rw [heq]
        exact hz
      · rw [hz] at hs
        cases hs
    refine h'.wakes x hx ((hparent x hx).trans hpar) hz' q ?_
    rw [hchan, hinit]
    exact hq

theorem reparentLoop_spec (p : Slot) {l : List Slot} (hl : l.Nodup) (s : State κ) :
    Reparented p l s.core (l.foldl (State.reparentRound p) s).core := by
  induction l generalizing s with
  | nil => exact reparented_nil p s.core
  | cons i l ih =>
    obtain ⟨hi, hl⟩ := List.nodup_cons.mp hl
    exact (reparentRound_spec p s i).cons (ih hl _) hi

theorem exitLocked_spec (s : State κ) (p : Slot) : ∃ l, ExitLife s.core p l ∧
    (s.exitLocked p).core =
      { s.core with life := l, doing := update s.core.doing p .user } := by
  let chan := (s.procs p).parent.map Chan.proc
  let u := s.wakeup1 chan
  have hu : u.core = s.core.wakeAll chan := s.core_wakeup1 chan
  have hloop : Reparented p (List.finRange nproc) u.core
      ((List.finRange nproc).foldl (State.reparentRound p) u).core :=
    reparentLoop_spec p (List.nodup_finRange nproc) u
  have hexit : s.exitLocked p =
      { ((List.finRange nproc).foldl (State.reparentRound p) u).update p
          fun x => { x with state := .zombie } with
        doing := update
          ((List.finRange nproc).foldl (State.reparentRound p) u).doing p .user } := rfl
  generalize (List.finRange nproc).foldl (State.reparentRound p) u = v at hloop hexit
  rw [hu] at hloop
  have hlife : ∀ q, (s.core.wakeAll chan).life q = wakeLife chan (s.core.life q) := fun _ => rfl
  refine ⟨(v.core.set p fun x => { x with state := .zombie }).life, ?_, ?_⟩
  · have hsame : ∀ q, q ≠ p →
        (v.core.set p fun x => { x with state := .zombie }).life q = v.core.life q := by
      intro q hq
      rw [Core.set_life, if_neg hq]
    refine ⟨fun q => ?_, fun q => ?_, ?_, fun q hq => ?_, fun q hq hchan => ?_,
      fun x q hq hpar hz hchan => ?_⟩
    · have hframe := hloop.frame q
      rw [hlife] at hframe
      have hwake : wakeLife chan (s.core.life q) =
          { s.core.life q with state := (wakeLife chan (s.core.life q)).state } := by
        rcases wakeLife_cases chan (s.core.life q) with h | ⟨_, h⟩ <;> rw [h]
      rw [hwake] at hframe
      rw [Core.set_life]
      split
      · rw [hframe]
      · exact hframe
    · have hpar := hloop.parent q
      rw [hlife, wakeLife_parent] at hpar
      have hset : ((v.core.set p fun x => { x with state := .zombie }).life q).parent =
          (v.core.life q).parent := by
        rw [Core.set_life]
        split <;> rfl
      rw [hset, hpar]
      simp [Core.wakeAll]
    · rw [Core.set_life, if_pos rfl]
    · rw [hsame q hq]
      rcases hloop.state q with heq | ⟨hs, hr⟩
      · rw [heq, hlife]
        rcases wakeLife_cases chan (s.core.life q) with h | ⟨hs, h⟩ <;> rw [h]
        · exact .inl rfl
        · exact .inr ⟨hs, rfl⟩
      · rw [hlife] at hs
        rcases wakeLife_cases chan (s.core.life q) with h | ⟨_, h⟩ <;> rw [h] at hs
        · exact .inr ⟨hs, hr⟩
        · cases hs
    · rw [hsame q hq]
      have hawake : (wakeLife chan (s.core.life q)).state ≠ .sleeping := wakeLife_awake hchan
      rcases hloop.state q with heq | ⟨hs, _⟩
      · rw [heq, hlife]
        exact hawake
      · exact absurd hs hawake
    · rw [hsame q hq]
      refine hloop.wakes x (List.mem_finRange x) ?_ ?_ q ?_
      · rw [hlife, wakeLife_parent]
        exact hpar
      · rw [hlife]
        exact (wakeLife_zombie chan _).mpr hz
      · rw [hlife, wakeLife_chan]
        exact hchan
  · have hv : v.core = { s.core with life := v.core.life } := hloop.rest
    have hdoing : v.doing = s.doing := congrArg Core.doing hv
    rw [hexit]
    have hup : (v.update p fun x => { x with state := .zombie }).core =
        v.core.set p fun x => { x with state := .zombie } := v.core_update p _ rfl
    have hcore : ∀ w : State κ, ∀ f, { w with doing := f }.core = { w.core with doing := f } :=
      fun _ _ => rfl
    rw [hcore, hup, hdoing]
    unfold Core.set Core.entry
    rw [hv]
    rfl

end Xv6.Ptable
