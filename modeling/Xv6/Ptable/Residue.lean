import Xv6.Ptable.Dispatch
import Xv6.Ptable.Tree

/-! # What a slot keeps from the process before

`fork` takes the first `UNUSED` slot and sets most of its fields. `killed`, `proc_mutexes`, the
end of `name` and, for a parent under HFS, `fp_priority` stay as the slot had them.
-/

namespace Xv6.Ptable

open Function (update update_self update_of_ne)
open Lib

variable {κ : Type}

variable {x : Life} {w : Parked} {c d : Core κ} {p np : Slot} {f : Life → Life} {s t : State κ}
  {root : Nat} {slot : Int → Int → Slot}

/-! ## Sleep channels -/

/-- Only a process that was switched away from in `sleep` has a channel, and a slot without a
process that can run is one whose last process has exited. -/
def Settled (x : Life) (w : Parked) : Prop :=
  (x.chan ≠ none → w = .slept ∨ w = .waiting) ∧ (¬ x.Alive → w = .exited)

theorem Settled.chan_of_plain (h : Settled x w) (hw : w.Plain) : x.chan = none := by
  by_contra hne
  rcases h.1 hne with rfl | rfl <;> exact hw

theorem Settled.chan_of_not_alive (h : Settled x w) (hx : ¬ x.Alive) : x.chan = none := by
  by_contra hne
  rcases h.1 hne with heq | heq <;> exact absurd ((h.2 hx).symm.trans heq) nofun

theorem Settled.of_alive (hx : x.Alive) (hchan : x.chan ≠ none → w = .slept ∨ w = .waiting) : Settled x w :=
  ⟨hchan, fun hdead => absurd hx hdead⟩

theorem settled_store (h : ∀ q, Settled (c.life q) (c.parked q)) (hf : Settled (f (c.life p)) (c.parked p))
    (q : Slot) : Settled (c.entry p f q) (c.parked q) := by
  by_cases hq : q = p
  · rw [hq, entry_self]
    exact hf
  · rw [entry_of_ne q hq]
    exact h q

theorem settled_place {l : Slot → Life} {f : Slot → Parked} (h : ∀ q, Settled (l q) (f q))
    (hw : Settled (l p) w) (q : Slot) : Settled (l q) (update f p w q) := by
  by_cases hq : q = p
  · rw [hq, update_self]
    exact hw
  · rw [update_of_ne hq]
    exact h q

theorem settled_entry (h : ∀ q, Settled (c.life q) (c.parked q)) (hf : Settled (f (c.life p)) w) (q : Slot) :
    Settled (c.entry p f q) (update c.parked p w q) := by
  by_cases hq : q = p
  · rw [hq, entry_self, update_self]
    exact hf
  · rw [entry_of_ne q hq, update_of_ne hq]
    exact h q

/-- A store that leaves the channel alone, and the state as far as it matters. -/
theorem Settled.congr {y : Life} (h : Settled x w) (hchan : y.chan = x.chan) (halive : x.Alive → y.Alive) :
    Settled y w := by
  unfold Settled
  rw [hchan]
  exact ⟨h.1, fun hy => h.2 fun hx => hy (halive hx)⟩

section Moves

variable [DecidableEq κ]

theorem Settled.move {e : Event} (hm : Matched c) (h : ∀ q, Settled (c.life q) (c.parked q))
    (hmove : Move c e d) (q : Slot) : Settled (d.life q) (d.parked q) := by
  obtain ⟨hp, hf⟩ := hm
  have hon : ∀ {k p}, c.Runs k p → (c.life p).chan = none := by
    intro k p on
    exact (h p).chan_of_plain (by rw [on.2]; trivial)
  cases hmove with
  | stutter => exact h q
  | @wake l woken =>
    refine (h q).congr ?_ fun hx => ?_
    · rcases woken q with heq | ⟨-, heq⟩ <;> simp [heq]
    · rcases woken q with heq | ⟨-, heq⟩
      · dsimp only
        rwa [heq]
      · exact Life.alive_of_state (.inr (.inl (congrArg Life.state heq)))
  | dispatch =>
    exact settled_store h ((h _).congr rfl fun _ => Life.alive_of_state (.inr (.inr rfl))) q
  | goto => exact h q
  | @shift k p w lock on from_plain to_plain =>
    refine settled_place h (.of_alive (hp.alive on) fun hne => ?_) q
    exact absurd ((h p).chan_of_plain from_plain) hne
  | awake on =>
    refine settled_entry h (.of_alive ?_ fun hne => absurd rfl hne) q
    exact hp.alive on
  | yield on into =>
    refine settled_entry h (.of_alive (Life.alive_of_state ?_) fun hne => absurd (hon on) hne) q
    rcases into with ⟨rfl, -⟩ | ⟨rfl, -⟩ <;> simp
  | sleep on into =>
    refine settled_entry h (.of_alive (Life.alive_of_state (.inl rfl)) fun _ => ?_) q
    rcases into with rfl | ⟨rfl, -⟩ <;> simp
  | alloc on user free =>
    refine settled_store h ((h _).congr rfl fun hx => absurd free hx.1.1) q
  | fail on forking =>
    refine settled_store h ((h _).congr rfl fun hx => ?_) q
    exact absurd (hf.embryo _ _ (child_of_failing forking)) hx.1.2
  | init | inherit | adopt | prepare | enter | store => exact settled_store h ((h _).congr rfl id) q
  | @finish k p np on forking =>
    have hnp : ¬ (c.life np).Alive := fun hx => hx.1.2 (hf.embryo p np (congrArg Doing.child forking))
    refine settled_entry h (.of_alive (Life.alive_of_state (.inr (.inl rfl))) fun hne => ?_) q
    exact absurd ((h np).chan_of_not_alive hnp) hne
  | @exit k p l on exiting left =>
    have hchan : (l q).chan = (c.life q).chan := by rw [left.frame q]
    dsimp only [Core.out]
    by_cases hq : q = p
    · subst hq
      rw [update_self]
      refine ⟨fun hne => ?_, fun _ => rfl⟩
      rw [hchan] at hne
      exact absurd (hon on) hne
    · rw [update_of_ne hq]
      exact (h q).congr hchan (left.alive hq)
  | @reap k p r lock on scanning dead child =>
    have hrp : r ≠ p := by
      rintro rfl
      exact (hp.alive on).2 dead
    have hfree := settled_store (f := fun x => { x with state := .unused, pid := 0, parent := none }) h
      ((h r).congr rfl fun hx => absurd dead hx.2)
    refine settled_place hfree (.of_alive ?_ fun hne => ?_) q
    · rw [entry_of_ne p hrp.symm]
      exact hp.alive on
    · rw [entry_of_ne p hrp.symm] at hne
      exact absurd ((h p).chan_of_plain (by rw [scanning]; trivial)) hne

/-! ## Open files -/

/-- A slot without a process has no open file, and neither has a process that exits. -/
structure Closed (c : Core κ) : Prop where
  gone : ∀ q, ¬ (c.life q).Alive → (∀ p, c.doing p ≠ .copied q) → (c.life q).ofile = fun _ => none
  exiting : ∀ q, c.doing q = .exiting → (c.life q).ofile = fun _ => none

omit [DecidableEq κ] in
theorem Closed.frame (h : Closed c)
    (hlife : ∀ q, (d.life q).ofile = (c.life q).ofile ∧ ((c.life q).Alive → (d.life q).Alive))
    (hcopied : ∀ p q, ¬ (d.life q).Alive → c.doing p = .copied q → d.doing p = .copied q)
    (hexiting : ∀ q, d.doing q = .exiting → c.doing q = .exiting) : Closed d where
  gone := fun q hq hdoing => by
    rw [(hlife q).1]
    exact h.gone q (fun hx => hq ((hlife q).2 hx)) fun p hp => hdoing p (hcopied p q hq hp)
  exiting := fun q hq => by
    rw [(hlife q).1]
    exact h.exiting q (hexiting q hq)

omit [DecidableEq κ] in
theorem closed_entry (h : (f (c.life p)).ofile = (c.life p).ofile ∧ ((c.life p).Alive → (f (c.life p)).Alive))
    (q : Slot) : (c.entry p f q).ofile = (c.life q).ofile ∧ ((c.life q).Alive → (c.entry p f q).Alive) := by
  by_cases hq : q = p
  · rw [hq, entry_self]
    exact h
  · rw [entry_of_ne q hq]
    exact ⟨rfl, id⟩

theorem copied_update {f g : Slot → Doing} {w : Doing} (h : g = update f p w)
    (hold : ∀ n, f p ≠ .copied n) (q n : Slot) (hq : f q = .copied n) : g q = .copied n := by
  rcases doing_update h q with ⟨rfl, -⟩ | ⟨-, heq⟩
  · exact absurd hq (hold n)
  · exact heq.trans hq

theorem exiting_update {f g : Slot → Doing} {w : Doing} (h : g = update f p w) (hnew : w ≠ .exiting)
    (q : Slot) (hq : g q = .exiting) : f q = .exiting := by
  rcases doing_update h q with ⟨-, heq⟩ | ⟨-, heq⟩
  · exact absurd (heq.symm.trans hq) hnew
  · exact heq.symm.trans hq

omit [DecidableEq κ] in
/-- What one process is doing has changed, from something other than `copied` to something other
than `exiting`. -/
theorem Closed.advance {w : Doing} (h : Closed c)
    (hlife : ∀ q, (d.life q).ofile = (c.life q).ofile ∧ ((c.life q).Alive → (d.life q).Alive))
    (hdoing : d.doing = update c.doing p w) (hold : ∀ n, c.doing p ≠ .copied n)
    (hnew : w ≠ .exiting) : Closed d :=
  h.frame hlife (fun q n _ => copied_update hdoing hold q n) (exiting_update hdoing hnew)

omit [DecidableEq κ] in
theorem Closed.files (h : Closed c) (hlife : ∀ q, q ≠ p → d.life q = c.life q)
    (hcopied : ∀ r q, q ≠ p → c.doing r = .copied q → d.doing r = .copied q)
    (hexiting : ∀ q, q ≠ p → d.doing q = .exiting → c.doing q = .exiting)
    (hself : (¬ (d.life p).Alive → (∀ r, d.doing r ≠ .copied p) → (d.life p).ofile = fun _ => none) ∧
      (d.doing p = .exiting → (d.life p).ofile = fun _ => none)) : Closed d where
  gone := fun q hq hdoing => by
    by_cases hqp : q = p
    · subst hqp
      exact hself.1 hq hdoing
    · rw [hlife q hqp] at hq ⊢
      exact h.gone q hq fun r hr => hdoing r (hcopied r q hqp hr)
  exiting := fun q hq => by
    by_cases hqp : q = p
    · subst hqp
      exact hself.2 hq
    · rw [hlife q hqp]
      exact h.exiting q (hexiting q hqp hq)

omit [DecidableEq κ] in
theorem Closed.exit (h : Closed c) (exiting : c.doing p = .exiting) (left : ExitLife c p d.life)
    (hdoing : d.doing = update c.doing p .user) : Closed d := by
  have hfiles : ∀ q, (d.life q).ofile = (c.life q).ofile := by
    intro q
    rw [left.frame q]
  have hkept := copied_update hdoing fun n hn => absurd (exiting.symm.trans hn) nofun
  refine ⟨fun q hq hcopied => ?_, fun q hq => ?_⟩
  swap
  · exact (hfiles q).trans (h.exiting q (exiting_update hdoing nofun q hq))
  rw [hfiles]
  by_cases hqp : q = p
  · rw [hqp]
    exact h.exiting p exiting
  exact h.gone q (fun hx => hq (left.alive hqp hx)) fun r hr => hcopied r (hkept r q hr)

theorem Closed.move {e : Event} (hr : Rooted c) (h : Closed c) (hmove : Move c e d) : Closed d := by
  obtain ⟨⟨hp, hf⟩, ht⟩ := hr
  cases hmove with
  | stutter => exact h
  | @wake l woken =>
    refine h.frame (fun q => ?_) (fun _ _ _ => id) fun _ => id
    dsimp only
    rcases woken q with heq | ⟨-, heq⟩
    · rw [heq]
      exact ⟨rfl, id⟩
    · rw [heq]
      exact ⟨rfl, fun _ => Life.alive_of_state (.inr (.inl rfl))⟩
  | dispatch =>
    refine h.frame (closed_entry ⟨rfl, fun _ => ?_⟩) (fun _ _ _ => id) fun _ => id
    exact Life.alive_of_state (.inr (.inr rfl))
  | goto | shift => exact h.frame (fun _ => ⟨rfl, id⟩) (fun _ _ _ => id) fun _ => id
  | awake | enter => exact h.frame (closed_entry ⟨rfl, id⟩) (fun _ _ _ => id) fun _ => id
  | yield on into =>
    refine h.frame (closed_entry ⟨rfl, fun _ => Life.alive_of_state ?_⟩) (fun _ _ _ => id) fun _ => id
    rcases into with ⟨rfl, -⟩ | ⟨rfl, -⟩ <;> simp
  | sleep =>
    refine h.frame (closed_entry ⟨rfl, fun _ => ?_⟩) (fun _ _ _ => id) fun _ => id
    exact Life.alive_of_state (.inl rfl)
  | alloc on user free =>
    refine h.advance (closed_entry ⟨rfl, fun hx => absurd free hx.1.1⟩) rfl (fun n hn => ?_) nofun
    exact absurd (user.symm.trans hn) nofun
  | fail on forking =>
    have hnp := hf.embryo _ _ (child_of_failing forking)
    refine h.advance (closed_entry ⟨rfl, fun hx => absurd hnp hx.1.2⟩) rfl (fun n hn => ?_) nofun
    rw [hn] at forking
    rcases forking with hn | hn <;> cases hn
  | init on forking | inherit on forking =>
    refine h.advance (closed_entry ⟨rfl, id⟩) rfl (fun n hn => ?_) nofun
    exact absurd (forking.symm.trans hn) nofun
  | @adopt k p np files on forking =>
    have hnp := hf.embryo p np (congrArg Doing.child forking)
    have hold := copied_update (w := .copied np) rfl fun n hn => absurd (forking.symm.trans hn) nofun
    have hexiting := exiting_update (f := c.doing) (p := p) (w := .copied np) rfl nofun
    refine h.files entry_of_ne (fun r q _ => hold r q) (fun q _ => hexiting q)
      ⟨fun _ hdoing => absurd (update_self ..) (hdoing p), fun hx => ?_⟩
    exact absurd hnp (ht.busy np (by simp [hexiting np hx])).1.2
  | @finish k p np on forking =>
    have hnp := hf.embryo p np (congrArg Doing.child forking)
    refine h.frame (closed_entry ⟨rfl, fun _ => Life.alive_of_state (.inr (.inl rfl))⟩)
      (fun r q hq hr => ?_) (fun q hq => ?_)
    · have hrp : r ≠ p := by
        rintro rfl
        obtain rfl := Doing.copied.inj (forking.symm.trans hr)
        refine hq ?_
        dsimp only
        rw [entry_self]
        exact Life.alive_of_state (.inr (.inl rfl))
      have hrnp : r ≠ np := by
        rintro rfl
        exact absurd hnp (ht.busy r (by simp [hr])).1.2
      dsimp only
      rw [update_of_ne hrp, update_of_ne hrnp, hr]
    · exact exiting_update (w := .user) rfl nofun q (exiting_update (w := .user) rfl nofun q hq)
  | @prepare k p on user mortal =>
    have hold := copied_update (w := .exiting) rfl fun n hn => absurd (user.symm.trans hn) nofun
    refine h.files entry_of_ne (fun r q _ => hold r q) (fun q hq hdoing => ?_)
      ⟨fun _ _ => congrArg Life.ofile entry_self, fun _ => congrArg Life.ofile entry_self⟩
    exact (update_of_ne hq _ _).symm.trans hdoing
  | exit on exiting left => exact h.exit exiting left rfl
  | reap on scanning dead child =>
    exact h.frame (closed_entry ⟨rfl, fun hx => absurd dead hx.2⟩) (fun _ _ _ => id) fun _ => id
  | @store k p files on user =>
    refine h.files entry_of_ne (fun _ _ _ => id) (fun _ _ => id) ⟨fun hx => absurd ?_ hx, fun hx => ?_⟩
    · dsimp only
      rw [entry_self]
      exact hp.alive on.1
    · exact absurd (user.symm.trans hx) nofun

end Moves

/-! ## The child -/

/-- The entry of a child in a slot with entry `x`, right after the `fork` by `p`. -/
def childOf (x cur : Proc) (p : Slot) (pid : Int) : Proc :=
  { cur with
    state := .runnable
    pid := pid
    parent := some p
    chan := none
    killed := x.killed
    name := State.safestrcpy x.name cur.name
    newrootInode := if cur.inNewroot ≠ 0 then cur.newrootInode else none
    procMutexes := x.procMutexes
    fpPriority := if cur.queueType = 0 then cur.fpPriority else x.fpPriority
    hfsPriority := 0 }

theorem forkFinish_child (hne : p ≠ np) (hp : (s.procs p).Scheduled) (hnp : (s.procs np).hfsPriority = 0) :
    (s.forkFinish p np).procs np =
      { s.procs np with
        state := .runnable
        fpPriority := if (s.procs p).queueType = 0 then (s.procs p).fpPriority
          else (s.procs np).fpPriority
        hfsPriority := 0
        queueType := (s.procs p).queueType } := by
  have hcur : (s.update np fun x => { x with state := .runnable }).procs p = s.procs p := by
    rw [State.update_procs, if_neg hne]
  unfold State.forkFinish State.forkEnqueue
  rw [hcur]
  rcases hp.2 with hqt | hqt
  · simp [hqt, State.fpEnqueue, State.update_procs, hnp]
  · simp [hqt, State.update_procs, State.hfsEnqueue_procs, clampHfs, hp.1]

variable [DecidableEq κ]

/-- In the middle of a `fork` by `p` that began in `s`: the parent is as it was, and `x` is the
entry of the child so far. -/
structure Forking (s u : State κ) (p np : Slot) (w : Doing) (x : Proc) : Prop where
  cpus : u.cpus = s.cpus
  doing : u.doing p = w
  parent : u.procs p = s.procs p
  child : u.procs np = x

section Forking

variable {s u v : State κ} {c : κ} {p np : Slot} {x : Proc}

theorem Forking.step {w : Doing} {f : Slot → Option (State κ)} (h : Forking s u p np w x)
    (hon : (s.cpus c).proc = some p) (hstep : u.onCpu c f = some v) : f p = some v := by
  obtain ⟨q, hruns, hf⟩ := onCpu_eq_some.mp hstep
  have hq : (u.cpus c).proc = some q := hruns.1
  rw [h.cpus] at hq
  obtain rfl := Option.some.inj (hon.symm.trans hq)
  exact hf

variable (hon : (s.cpus c).proc = some p) (hne : p ≠ np)

include hon hne

theorem Forking.alloc (hfree : s.freeSlot = some np)
    (hstep : Step s (.forkAlloc c) v) :
    Forking s v p np (.allocated np) { s.procs np with state := .embryo, pid := s.nextpid } := by
  obtain ⟨q, hruns, -, -, rfl⟩ := call_locked hstep
  obtain rfl := Option.some.inj (hon.symm.trans hruns.1)
  unfold State.forkAlloc
  rw [hfree]
  refine ⟨rfl, update_self .., ?_, ?_⟩
  · simp [State.update_procs, hne]
  · simp [State.update_procs]

theorem Forking.init (h : Forking s u p np (.allocated np) x)
    (hstep : Step u (.forkInit c) v) :
    Forking s v p np (.initialised np)
      { x with
        maxproc := 0
        maxprocset := 0
        newrootInode := none
        inNewroot := 0
        inContainer := 0
        nameSpace := 0 } := by
  have hstep := h.step hon hstep
  rw [h.doing] at hstep
  rw [← Option.some.inj hstep]
  refine ⟨h.cpus, update_self .., ?_, ?_⟩
  · simp [State.forkInit, State.update_procs, hne, h.parent]
  · simp [State.forkInit, State.update_procs, h.child]

theorem Forking.inherit (h : Forking s u p np (.initialised np) x)
    (hstep : Step u (.forkInherit c) v) :
    Forking s v p np (.inherited np)
      { x with
        maxprocset := (s.procs p).maxprocset
        maxproc := (s.procs p).maxproc
        inNewroot := (s.procs p).inNewroot
        inContainer := (s.procs p).inContainer
        nameSpace := (s.procs p).nameSpace
        newrootInode := if (s.procs p).inNewroot ≠ 0 then (s.procs p).newrootInode else none } := by
  have hstep := h.step hon hstep
  rw [h.doing] at hstep
  rw [← Option.some.inj hstep]
  refine ⟨h.cpus, update_self .., ?_, ?_⟩
  · simp [State.forkInherit, State.update_procs, hne, h.parent]
  · simp [State.forkInherit, State.update_procs, h.parent, h.child]

theorem Forking.copy (h : Forking s u p np (.inherited np) x)
    (hstep : Step u (.forkCopy c) v) :
    Forking s v p np (.copied np)
      { x with
        sz := (s.procs p).sz
        parent := some p
        shm := (s.procs p).shm
        ofile := fun i => if ((s.procs p).ofile i).isSome then (s.procs p).ofile i else x.ofile i
        cwd := (s.procs p).cwd
        name := State.safestrcpy x.name (s.procs p).name } := by
  have hstep := h.step hon hstep
  rw [h.doing] at hstep
  rw [← Option.some.inj hstep]
  refine ⟨h.cpus, update_self .., ?_, ?_⟩
  · simp [State.forkCopy, State.update_procs, hne, h.parent]
  · simp [State.forkCopy, State.update_procs, h.parent, h.child]

end Forking

/-- What a `fork` that goes through makes of the slot it takes. -/
theorem forkCall_child {c : κ} (hp : Placed s.core) (hsched : ∀ q, (s.procs q).Scheduled)
    (hchan : (s.procs np).chan = none) (hfiles : (s.procs np).ofile = fun _ => none)
    (hon : (s.cpus c).proc = some p) (hfree : s.freeSlot = some np) (hfork : Run Step s (forkCall c) t) :
    t.procs np = childOf (s.procs np) (s.procs p) p s.nextpid := by
  have hne : p ≠ np := by
    rintro rfl
    have hrunning : (s.procs p).state = .running := hp.running c p hon
    rw [unused_of_freeSlot hfree] at hrunning
    cases hrunning
  obtain ⟨s1, h1, hfork⟩ := hfork.cons_inv
  obtain ⟨s2, h2, hfork⟩ := hfork.cons_inv
  obtain ⟨s3, h3, hfork⟩ := hfork.cons_inv
  obtain ⟨s4, h4, hfork⟩ := hfork.cons_inv
  obtain ⟨s5, h5, hfork⟩ := hfork.cons_inv
  cases hfork
  have hcopied := (((Forking.alloc hon hne hfree h1).init hon hne h2).inherit hon hne h3).copy hon hne h4
  have hfinish := hcopied.step hon h5
  rw [hcopied.doing] at hfinish
  obtain ⟨-, hfinish⟩ := locked_eq_some.mp hfinish
  rw [← Option.some.inj hfinish]
  have hparent := hcopied.parent
  have hchild := hcopied.child
  rw [forkFinish_child hne (hparent ▸ hsched p) (by rw [hchild]; exact (hsched np).1), hparent, hchild]
  have hofile : ∀ i, (if ((s.procs p).ofile i).isSome then (s.procs p).ofile i else none) =
      (s.procs p).ofile i := by
    intro i
    cases (s.procs p).ofile i <;> rfl
  simp [childOf, hchan, hfiles, hofile]

/-! ## Two children -/

/-- The two entries are the same but for `pid` and `parent`. -/
def SameChild (x y : Proc) : Prop := { x with pid := y.pid, parent := y.parent } = y

/-- The slots hold the same in the fields that a `fork` by `cur` leaves alone. -/
structure SameResidue (cur x y : Proc) : Prop where
  killed : x.killed = y.killed
  procMutexes : x.procMutexes = y.procMutexes
  fpPriority : cur.queueType = 0 ∨ x.fpPriority = y.fpPriority
  name : ∀ i : Fin nameLen, State.nameEnd cur.name + 1 < i.val → x.name i = y.name i

def Proc.Fresh (x : Proc) : Prop := x.killed = false ∧ ∀ i, x.procMutexes i = -1

theorem safestrcpy_eq_iff {x y t : Fin nameLen → UInt8} :
    State.safestrcpy x t = State.safestrcpy y t ↔ ∀ i, State.nameEnd t + 1 < i.val → x i = y i := by
  rw [funext_iff]
  refine forall_congr' fun i => ?_
  unfold State.safestrcpy
  by_cases hlow : i.val < State.nameEnd t
  · rw [if_pos hlow, if_pos hlow]
    exact iff_of_true rfl fun h => absurd h (by omega)
  by_cases hmid : i.val ≤ State.nameEnd t + 1
  · rw [if_neg hlow, if_neg hlow, if_pos hmid, if_pos hmid]
    exact iff_of_true rfl fun h => absurd h (by omega)
  · simp only [hlow, hmid, if_false]
    exact ⟨fun h _ => h, fun h => h (by omega)⟩

theorem sameChild_childOf_iff {x y cur : Proc} {p' : Slot} {pid pid' : Int} :
    SameChild (childOf x cur p pid) (childOf y cur p' pid') ↔ SameResidue cur x y := by
  have hprio : ((if cur.queueType = 0 then cur.fpPriority else x.fpPriority) =
      if cur.queueType = 0 then cur.fpPriority else y.fpPriority) ↔
      cur.queueType = 0 ∨ x.fpPriority = y.fpPriority := by
    by_cases h : cur.queueType = 0 <;> simp [h]
  unfold SameChild childOf
  rw [Proc.mk.injEq]
  simp only [true_and, and_true]
  rw [safestrcpy_eq_iff, hprio]
  exact ⟨fun ⟨hk, hn, hm, hf⟩ => ⟨hk, hm, hf, hn⟩, fun h => ⟨h.killed, h.name, h.procMutexes, h.fpPriority⟩⟩

omit [DecidableEq κ] in
theorem booted_settled (q : Slot) :
    Settled ((booted κ root slot).core.life q) ((booted κ root slot).core.parked q) := by
  by_cases hq : q = 0
  · subst hq
    exact .of_alive (Life.alive_of_state (.inr (.inl rfl))) fun hne => absurd rfl hne
  · refine ⟨fun hne => absurd ?_ hne, fun _ => ?_⟩
    · simp [booted, State.core, Proc.life, blank, hq]
    · simp [booted, State.core, hq]

omit [DecidableEq κ] in
theorem booted_closed : Closed (booted κ root slot).core where
  gone := fun q _ _ => by
    by_cases hq : q = 0 <;> simp [booted, State.core, Proc.life, initcode, blank, hq]
  exiting := nofun

/-- What is known of the slots in a state that is reached. -/
structure Clean (s : State κ) : Prop extends Rooted s.core where
  settled : ∀ q, Settled (s.core.life q) (s.core.parked q)
  closed : Closed s.core
  scheduled : ∀ q, (s.procs q).Scheduled

theorem Clean.step {a : Label κ} (h : Clean s) (hstep : Step s a t) : Clean t := by
  have hmove := move_of_step hstep
  exact ⟨h.toRooted.move hmove, Settled.move h.toMatched h.settled hmove, h.closed.move h.toRooted hmove,
    scheduled_policy.move h.scheduled (fun _ _ _ _ _ => trivial) (ready_of_step h.toMatched hstep)⟩

theorem clean_of_run {as : List (Label κ)} (hrun : Run Step (booted κ root slot) as s) : Clean s :=
  hrun.invariant (fun _ _ _ h hstep => Clean.step h hstep) ⟨booted_rooted,
    booted_settled, booted_closed, booted_scheduled⟩

theorem Clean.child {c : κ} (h : Clean s) (hon : (s.cpus c).proc = some p) (hfree : s.freeSlot = some np)
    (hfork : Run Step s (forkCall c) t) : t.procs np = childOf (s.procs np) (s.procs p) p s.nextpid := by
  have hunused := unused_of_freeSlot hfree
  have hdead : ¬ (s.core.life np).Alive := fun hx => hx.1.1 hunused
  have hnocopy : ∀ q, s.core.doing q ≠ .copied np := by
    intro q hq
    have hembryo := h.forks.embryo q np (congrArg Doing.child hq)
    exact absurd (hunused.symm.trans hembryo) nofun
  exact forkCall_child h.placed h.scheduled ((h.settled np).chan_of_not_alive hdead)
    (h.closed.gone np hdead hnocopy) hon hfree hfork

/-- Two children of parents with the same entry agree exactly when the slots they got held the
same in the fields that `fork` leaves alone, and a child is fresh exactly when its slot was. -/
theorem slot_residue_iff (root : Nat) (slot : Int → Int → Slot) (as as' : List (Label κ))
    (s s' t t' : State κ) (c c' : κ) (p p' np np' : Slot)
    (hrun : Run Step (booted κ root slot) as s) (hrun' : Run Step (booted κ root slot) as' s')
    (hon : (s.cpus c).proc = some p) (hon' : (s'.cpus c').proc = some p')
    (hsame : s.procs p = s'.procs p')
    (hfree : s.freeSlot = some np) (hfree' : s'.freeSlot = some np')
    (hfork : Run Step s (forkCall c) t) (hfork' : Run Step s' (forkCall c') t') :
    ((t.procs np).parent = some p ∧ (t'.procs np').parent = some p') ∧
      (SameChild (t.procs np) (t'.procs np') ↔ SameResidue (s.procs p) (s.procs np) (s'.procs np')) ∧
      ((t.procs np).Fresh ↔ (s.procs np).Fresh) := by
  have hchild := (clean_of_run hrun).child hon hfree hfork
  have hchild' := (clean_of_run hrun').child hon' hfree' hfork'
  rw [hchild, hchild', ← hsame]
  exact ⟨⟨rfl, rfl⟩, sameChild_childOf_iff, Iff.rfl⟩

omit [DecidableEq κ] in
theorem kill_procs_of_ne {pid : Int} {q : Slot} (h : s.findPid pid = some p) (hq : q ≠ p) :
    (s.kill pid).procs q = s.procs q := by
  unfold State.kill
  rw [h]
  rw [State.requeue_procs, if_neg hq, State.update_procs, if_neg hq]

/-- `init` forks right away, or calls `kill(0)` first: slot 1 is `UNUSED` and has `pid` 0. -/
theorem killed_slot_runs : ∃ s t t' : State (Fin 1),
    Run Step (booted (Fin 1) 1 fun _ _ => 0) (initRuns 0) s ∧ Step s (.kill 0) (s.kill 0) ∧
      (s.cpus 0).proc = some 0 ∧ ((s.kill 0).cpus 0).proc = some 0 ∧ s.procs 0 = (s.kill 0).procs 0 ∧
      s.freeSlot = some 1 ∧ (s.kill 0).freeSlot = some 1 ∧
      Run Step s (forkCall 0) t ∧ Run Step (s.kill 0) (forkCall 0) t' ∧
      (t.procs 1).killed = false ∧ (t'.procs 1).killed = true := by
  simp only [exists_and_left]
  refine Run.found id (fun s => (s.findPid 0 = some 1 ∧ s.lock = none) ∧ (s.cpus 0).proc = some 0 ∧
    ((s.kill 0).cpus 0).proc = some 0 ∧ s.freeSlot = some 1 ∧ (s.kill 0).freeSlot = some 1 ∧
    ((execute State.step s (forkCall 0)).any fun t => (t.procs 1).killed = false) ∧
    (execute State.step (s.kill 0) (forkCall 0)).any fun t => (t.procs 1).killed = true)
    (by decide +kernel) ?_
  rintro s - ⟨⟨hpid, hlock⟩, hon, hon', hfree, hfree', hforked, hforked'⟩
  refine ⟨if_pos hlock, hon, hon', (kill_procs_of_ne hpid (by decide)).symm, hfree, hfree', ?_⟩
  exact Run.found id _ hforked fun _ _ h => Run.found id _ hforked' fun _ _ h' => ⟨h, h'⟩

theorem slot_residue_kill : ∃ s t t' : State (Fin 1),
    Run Step (booted (Fin 1) 1 fun _ _ => 0) (initRuns 0 ++ [.kill 0]) (s.kill 0) ∧
      Run Step s (forkCall 0) t ∧ Run Step (s.kill 0) (forkCall 0) t' ∧
      (SameChild (t.procs 1) (t'.procs 1) ↔
        SameResidue (s.procs 0) (s.procs 1) ((s.kill 0).procs 1)) := by
  obtain ⟨s, t, t', hrun, hkill, hon, hon', hsame, hfree, hfree', hfork, hfork', -⟩ := killed_slot_runs
  exact ⟨s, t, t', hrun.snoc hkill, hfork, hfork', (slot_residue_iff 1 (fun _ _ => 0) _ _ s (s.kill 0) t t'
    0 0 0 0 1 1 hrun (hrun.snoc hkill) hon hon' hsame hfree hfree' hfork hfork').2.1⟩

/-- The parents have the same entry, and one child starts out killed. -/
theorem kill_marks_free_slot : ∃ s s' t t' : State (Fin 1),
    Run Step (booted (Fin 1) 1 fun _ _ => 0) (initRuns 0) s ∧
      Run Step (booted (Fin 1) 1 fun _ _ => 0) (initRuns 0 ++ [.kill 0]) s' ∧
      s.procs 0 = s'.procs 0 ∧ Run Step s (forkCall 0) t ∧ Run Step s' (forkCall 0) t' ∧
      (t.procs 1).killed = false ∧ (t'.procs 1).killed = true := by
  obtain ⟨s, t, t', hrun, hkill, -, -, hsame, -, -, hfork, hfork', hkilled⟩ := killed_slot_runs
  exact ⟨s, s.kill 0, t, t', hrun, hrun.snoc hkill, hsame, hfork, hfork', hkilled⟩

end Xv6.Ptable
