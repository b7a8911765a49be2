import Mathlib.Data.Int.Range
import Xv6.Ptable.Dispatch
import Xv6.Sched.QueueRefinement

/-! # The board of the scheduler

The fields of the entries that the scheduler reads, and each ready queue as the list it holds.
`shift_of_step` says what a step does to them; the two loops that enqueue, in `wakeup1` and in
`exit`, are cut into single offers.
-/

namespace Xv6.Ptable

open Lib Sched

variable {κ : Type}

variable {j : Int} {l : List Slot} {wakes : Slot → Bool} {s : State κ} {root : Nat} {slot : Int → Int → Slot}

structure Board where
  ready : Slot → Ready
  queue : FifoQueues Slot

def State.board (s : State κ) : Board := ⟨fun p => (s.procs p).ready, s.queues.lists⟩

/-- The queue of the current priority of a process. -/
def Ready.target (x : Ready) : Int := if x.queueType = 0 then x.fpPriority else x.hfsPriority

namespace Board

variable {b b' b'' : Board} {p q : Slot} {k : Int} {x y : Ready} {xs : List Slot}

def InQueue (b : Board) (p : Slot) (k : Int) : Prop := 0 ≤ k ∧ k < prioMax ∧ p ∈ b.queue k

instance : Decidable (b.InQueue p k) := inferInstanceAs (Decidable (_ ∧ _))

def Free (b : Board) (p : Slot) : Prop := ∀ k, ¬ b.InQueue p k

instance : Decidable (b.Free p) :=
  decidable_of_iff (∀ k : Int, 0 ≤ k → k < prioMax → p ∉ b.queue k)
    ⟨fun h k hk => h k hk.1 hk.2.1 hk.2.2, fun h k hlo hhi hp => h k ⟨hlo, hhi, hp⟩⟩

def listed (b : Board) : List Slot := (List.range prioMax).flatMap fun k : Nat => b.queue k

/-! ## Changes of an entry -/

def put (b : Board) (p : Slot) (x : Ready) : Board :=
  { b with ready := Function.update b.ready p x }

def set (b : Board) (p : Slot) (st : ProcState) : Board := b.put p { b.ready p with state := st }

/-- A process that sleeps becomes `RUNNABLE`, if it is one of those to wake. -/
def wake (b : Board) (wakes : Bool) (p : Slot) : Board :=
  if (b.ready p).state = .sleeping ∧ wakes then b.set p .runnable else b

@[simp] theorem put_queue : (b.put p x).queue = b.queue := rfl

@[simp] theorem put_self : (b.put p x).ready p = x := Function.update_self ..

theorem put_put : (b.put p x).put p y = b.put p y := by
  unfold put
  rw [Function.update_idem]

theorem put_of_ne (h : q ≠ p) : (b.put p x).ready q = b.ready q :=
  Function.update_of_ne h ..

@[simp] theorem set_self (st : ProcState) : (b.set p st).ready p = { b.ready p with state := st } :=
  put_self

theorem set_of_ne (st : ProcState) (h : q ≠ p) : (b.set p st).ready q = b.ready q :=
  put_of_ne h

@[simp] theorem wake_queue (wakes : Bool) : (b.wake wakes p).queue = b.queue := by
  unfold wake
  split <;> rfl

theorem wake_of_ne (wakes : Bool) (h : q ≠ p) : (b.wake wakes p).ready q = b.ready q := by
  unfold wake
  split
  · exact set_of_ne _ h
  · rfl

theorem wake_target (wakes : Bool) : ((b.wake wakes p).ready p).target = (b.ready p).target := by
  unfold wake
  split
  · rw [set_self]
    rfl
  · rfl

/-! ## Changes of a queue -/

def setQueue (b : Board) (k : Int) (xs : List Slot) : Board :=
  { b with queue := Function.update b.queue k xs }

@[simp] theorem setQueue_ready : (b.setQueue k xs).ready = b.ready := rfl

@[simp] theorem setQueue_self : (b.setQueue k xs).queue k = xs :=
  Function.update_self ..

theorem setQueue_of_ne (h : j ≠ k) : (b.setQueue k xs).queue j = b.queue j :=
  Function.update_of_ne h ..

theorem inQueue_setQueue {xs : List Slot} (h : (b.setQueue k xs).InQueue q j) :
    b.InQueue q j ∨ j = k ∧ q ∈ xs := by
  obtain ⟨hlo, hhi, hq⟩ := h
  by_cases hj : j = k
  · subst hj
    rw [setQueue_self] at hq
    exact .inr ⟨rfl, hq⟩
  · rw [setQueue_of_ne hj] at hq
    exact .inl ⟨hlo, hhi, hq⟩

/-! ## Offers -/

/-- What an enqueue function does with `p` at queue `k`. The two outcomes at a full queue depend
on where its indices are. -/
inductive Offer (b : Board) (p : Slot) (k : Int) : Board → Prop
  | idle (h : (b.ready p).state ≠ .runnable) : Offer b p k b
  | full (h : queueSize - 1 ≤ (b.queue k).length) : Offer b p k b
  | lapse (ready : (b.ready p).state = .runnable) (h : queueSize - 1 ≤ (b.queue k).length) :
      Offer b p k (b.setQueue k [])
  | append (ready : (b.ready p).state = .runnable) (h : (b.queue k).length < queueSize - 1) :
      Offer b p k (b.setQueue k (b.queue k ++ [p]))

theorem Offer.ready_eq (h : Offer b p k b') : b'.ready = b.ready := by cases h <;> rfl

/-- One offer after the other, each to a process that is woken before if it is to wake. -/
inductive Rounds (wakes : Slot → Bool) : List Slot → Board → Board → Prop
  | nil (b : Board) : Rounds wakes [] b b
  | cons {p : Slot} {l : List Slot} {b b' b'' : Board}
      (offer : Offer (b.wake (wakes p) p) p (b.ready p).target b') (rest : Rounds wakes l b' b'') :
      Rounds wakes (p :: l) b b''

/-- One loop over the table for each channel; `chan` is what the processes sleep on. -/
inductive Loops (chan : Slot → Option Chan) : List (Option Chan) → Board → Board → Prop
  | nil (b : Board) : Loops chan [] b b
  | cons {ch : Option Chan} {chs : List (Option Chan)} {b b' b'' : Board}
      (rounds : Rounds (fun p => decide (chan p = ch)) (List.finRange nproc) b b')
      (rest : Loops chan chs b' b'') : Loops chan (ch :: chs) b b''

theorem Offer.inQueue (h : Offer b p k b') (hq : b'.InQueue q j) :
    b.InQueue q j ∨ q = p ∧ j = k ∧ (b.ready p).state = .runnable := by
  cases h with
  | idle | full => exact .inl hq
  | lapse ready hfull =>
    rcases inQueue_setQueue hq with hq | ⟨-, hq⟩
    · exact .inl hq
    · exact absurd hq List.not_mem_nil
  | append ready hroom =>
    rcases inQueue_setQueue hq with hq | ⟨rfl, hmem⟩
    · exact .inl hq
    · rw [List.mem_append, List.mem_singleton] at hmem
      exact hmem.imp (fun hmem => ⟨hq.1, hq.2.1, hmem⟩) fun hmem => ⟨hmem, rfl, ready⟩

theorem Rounds.ready_cases (h : Rounds wakes l b b') (p : Slot) :
    b'.ready p = b.ready p ∨ ((b.ready p).state = .sleeping ∧ wakes p) ∧
      b'.ready p = { b.ready p with state := .runnable } := by
  induction h with
  | nil b => exact .inl rfl
  | @cons q l b b' b'' offer rest ih =>
    rw [offer.ready_eq] at ih
    unfold wake at ih
    split at ih
    · rename_i hq
      by_cases hpq : p = q
      · subst hpq
        rw [set_self] at ih
        right
        refine ⟨hq, ?_⟩
        rcases ih with ih | ⟨hsleep, -⟩
        · exact ih
        · exact absurd hsleep.1 (by simp)
      · rwa [set_of_ne _ hpq] at ih
    · exact ih

theorem Rounds.ready_of_awake (h : Rounds wakes l b b') (hp : (b.ready p).state ≠ .sleeping) :
    b'.ready p = b.ready p :=
  (h.ready_cases p).resolve_right fun hx => hp hx.1.1

theorem Rounds.eq_of_idle (h : Rounds wakes l b b')
    (hidle : ∀ p ∈ l, (b.ready p).state ≠ .runnable ∧ ¬ ((b.ready p).state = .sleeping ∧ wakes p)) :
    b' = b := by
  induction h with
  | nil b => rfl
  | @cons p l b b' b'' offer rest ih =>
    obtain ⟨hready, hsleep⟩ := hidle p List.mem_cons_self
    have hwake : b.wake (wakes p) p = b := if_neg hsleep
    rw [hwake] at offer
    have hsame : b' = b := by
      cases offer with
      | idle | full => rfl
      | lapse ready | append ready => exact absurd ready hready
    subst hsame
    exact ih fun q hq => hidle q (List.mem_cons_of_mem p hq)

theorem Loops.ready_of_awake {chan : Slot → Option Chan} {chs : List (Option Chan)}
    (h : Loops chan chs b b') (hp : (b.ready p).state ≠ .sleeping) : b'.ready p = b.ready p := by
  induction h with
  | nil b => rfl
  | cons rounds rest ih =>
    have hstep := rounds.ready_of_awake hp
    rw [ih (hstep ▸ hp), hstep]

inductive Take (b : Board) : Option Slot → Board → Prop
  | none : Take b none b
  | some {k : Int} {p : Slot} {xs : List Slot} (lo : 0 ≤ k) (hi : k < prioMax)
      (below : ∀ j, 0 ≤ j → j < k → b.queue j = []) (first : b.queue k = p :: xs) :
      Take b (some p) (b.setQueue k xs)

theorem Take.ready_eq {o : Option Slot} (h : Take b o b') : b'.ready = b.ready := by cases h <;> rfl

end Board

open Board

/-! ## Reading the board off the state -/

/-- Every enqueue finds a queue with its indices in range. -/
structure Readable (s : State κ) : Prop where
  bounds : s.queues.InBounds
  entries : ∀ p, (s.procs p).Queueable

section Operations

variable {s t : State κ} {p np : Slot}

theorem SameReady.board (h : SameReady s t) : t.board = s.board := by
  unfold State.board
  rw [h.queues, funext h.ready]

theorem queueable_keeping : Keeping Proc.Queueable (fun n => n < prioMax) ReadyQueues.InBounds where
  toPolicy := queueable_policy
  enqueue_fp := fun hq hx p => (enqueueAt_lists hq p hx.1.1 hx.1.2.1).1
  enqueue_hfs := fun hq p => (enqueueAt_lists hq p (by decide) (by decide)).1
  dequeue := fun hq => (fpDequeue_lists hq).1

theorem Readable.sane (h : Readable s) : Sane Proc.Queueable ReadyQueues.InBounds s := ⟨h.bounds, h.entries⟩

theorem Readable.of_sane (h : Sane Proc.Queueable ReadyQueues.InBounds s) : Readable s := ⟨h.queues, h.entries⟩

theorem State.board_update (s : State κ) (p : Slot) (f : Proc → Proc) :
    (s.update p f).board = s.board.put p (f (s.procs p)).ready := by
  unfold State.board Board.put
  congr 1
  funext q
  rw [State.update_procs, Function.update_apply]
  split
  · rename_i hq
    rw [hq]
  · rfl

theorem State.board_update_id (s : State κ) (p : Slot) {f : Proc → Proc}
    (h : (f (s.procs p)).ready = (s.procs p).ready) : (s.update p f).board = s.board := by
  rw [State.board_update, h]
  unfold State.board Board.put
  rw [Function.update_eq_self]

theorem State.board_setState (s : State κ) (p : Slot) (st : ProcState) :
    (s.setState p st).board = s.board.set p st :=
  s.board_update p _

theorem Readable.update (h : Readable s) {f : Proc → Proc}
    (hf : (s.procs p).Queueable → (f (s.procs p)).Queueable) : Readable (s.update p f) :=
  .of_sane (Keeping.update h.sane p hf)

theorem Readable.setState (h : Readable s) (p : Slot) (st : ProcState) : Readable (s.setState p st) :=
  .of_sane (queueable_keeping.setState h.sane p st)

theorem Readable.target (h : Readable s) (p : Slot) :
    0 ≤ (s.board.ready p).target ∧ (s.board.ready p).target < prioMax := by
  obtain ⟨⟨hlo, hhi, hhfs⟩, -⟩ := h.entries p
  have hzero : (s.board.ready p).hfsPriority = 0 := hhfs
  unfold Ready.target
  split
  · exact ⟨hlo, hhi⟩
  · rw [hzero]
    decide

theorem offer_enqueueAt (h : Readable s) {k : Int} (ready : (s.procs p).state = .runnable)
    (hlo : 0 ≤ k) (hhi : k < prioMax) :
    Offer s.board p k { s.board with queue := (enqueueAt s.queues p k).2.lists } := by
  obtain ⟨-, ⟨hfull, heq | heq⟩ | ⟨hroom, heq⟩⟩ := enqueueAt_lists h.bounds p hlo hhi
  · rw [heq]
    exact .full hfull
  · rw [heq]
    exact .lapse ready hfull
  · rw [heq]
    exact .append ready hroom

theorem fpEnqueue_offer (h : Readable s) (p : Slot) :
    Offer s.board p (s.procs p).fpPriority (s.fpEnqueue p).board := by
  have hrange := (h.entries p).1
  unfold State.fpEnqueue Sched.fpEnqueue
  by_cases ready : (s.procs p).state = .runnable
  · rw [if_neg (not_not.mpr ready)]
    exact offer_enqueueAt h ready hrange.1 hrange.2.1
  · rw [if_pos ready]
    exact .idle ready

theorem hfsEnqueue_offer (h : Readable s) (p : Slot) :
    Offer s.board p (s.procs p).hfsPriority (s.hfsEnqueue p).board := by
  have hzero : (s.procs p).hfsPriority = 0 := (h.entries p).1.2.2
  have hready : ∀ q, ((s.hfsEnqueue p).procs q).ready = (s.procs q).ready := by
    intro q
    rw [State.hfsEnqueue_procs]
    split
    · have hq : (s.procs q).hfsPriority = 0 := (h.entries q).1.2.2
      simp [Proc.ready, clampHfs, hq]
    · rfl
  have hboard : (s.hfsEnqueue p).board = { s.board with queue := (s.hfsEnqueue p).queues.lists } := by
    unfold State.board
    rw [funext hready]
  rw [hboard]
  have hqueues : (s.hfsEnqueue p).queues =
      (Sched.hfsEnqueue s.queues p (s.procs p).state (s.procs p).hfsPriority).2.1 := rfl
  unfold Sched.hfsEnqueue at hqueues
  by_cases ready : (s.procs p).state = .runnable
  · rw [if_neg (not_not.mpr ready), hzero] at hqueues
    have hq : (s.hfsEnqueue p).queues = (enqueueAt s.queues p 0).2 := hqueues
    rw [hq, hzero]
    exact offer_enqueueAt (p := p) (k := 0) h ready (by decide) (by decide)
  · rw [if_pos ready] at hqueues
    rw [hqueues]
    exact .idle ready

theorem requeue_offer (h : Readable s) (p : Slot) :
    Offer s.board p (s.board.ready p).target (s.requeue p).board := by
  unfold State.requeue Ready.target
  rcases (h.entries p).2.2 with hfp | hhfs
  · rw [if_pos hfp, if_pos (show (s.board.ready p).queueType = 0 from hfp)]
    exact fpEnqueue_offer h p
  have hne : (s.procs p).queueType ≠ 0 := by rw [hhfs]; decide
  have hzero : (s.procs p).hfsPriority = 0 := (h.entries p).1.2.2
  have hsame : ({ s.procs p with hfsPriority := 0 } : Proc).ready = (s.procs p).ready := by
    simp [Proc.ready, hzero]
  have hboard := s.board_update_id p (f := fun x => { x with hfsPriority := 0 }) hsame
  have hread : Readable (s.update p fun x => { x with hfsPriority := 0 }) :=
    h.update fun hx => queueable_policy.same hx rfl rfl hzero.symm
  rw [if_neg hne, if_pos hhfs, if_neg (show (s.board.ready p).queueType ≠ 0 from hne)]
  have hoffer := hfsEnqueue_offer hread p
  rw [hboard, State.update_procs, if_pos rfl] at hoffer
  rw [show (s.board.ready p).hfsPriority = 0 from hzero]
  exact hoffer

/-! ## The loops -/

theorem wakeRound_chan (ch : Option Chan) {q : Slot} :
    ((State.wakeRound ch s p).procs q).chan = (s.procs q).chan := by
  rw [State.wakeRound_procs]
  split
  · unfold wakeProc requeueProc
    split <;> split <;> rfl
  · rfl

theorem wakeRound_offer (h : Readable s) (ch : Option Chan) (p : Slot) :
    Offer (s.board.wake (decide ((s.procs p).chan = ch)) p) p (s.board.ready p).target
        (State.wakeRound ch s p).board := by
  unfold State.wakeRound Board.wake
  by_cases hwake : (s.procs p).state = .sleeping ∧ (s.procs p).chan = ch
  · rw [if_pos hwake, if_pos ⟨hwake.1, decide_eq_true hwake.2⟩, ← State.board_setState]
    have htarget : ((s.setState p .runnable).board.ready p).target = (s.board.ready p).target := by
      rw [State.board_setState, Board.set_self]
      rfl
    rw [← htarget]
    exact requeue_offer (h.setState p .runnable) p
  · rw [if_neg hwake, if_neg fun hx => hwake ⟨hx.1, of_decide_eq_true hx.2⟩]
    exact requeue_offer h p

theorem rounds_of_fold (ch : Option Chan) (l : List Slot) (h : Readable s) :
    Rounds (fun p => decide ((s.procs p).chan = ch)) l s.board (l.foldl (State.wakeRound ch) s).board := by
  induction l generalizing s with
  | nil => exact .nil _
  | cons p l ih =>
    have hrest := ih (.of_sane (queueable_keeping.wakeRound h.sane ch p))
    simp only [wakeRound_chan] at hrest
    exact .cons (wakeRound_offer h ch p) hrest

theorem wakeup1_rounds (h : Readable s) (ch : Option Chan) :
    Rounds (fun p => decide ((s.procs p).chan = ch)) (List.finRange nproc) s.board (s.wakeup1 ch).board :=
  rounds_of_fold ch (List.finRange nproc) h

theorem wakeup1_chan (ch : Option Chan) (q : Slot) :
    ((s.wakeup1 ch).procs q).chan = (s.procs q).chan := by
  rw [State.wakeup1_procs]
  unfold wakeProc requeueProc
  split <;> split <;> rfl

/-- A process that `exit` of `p` hands to `init` and wakes `init` for. -/
def State.orphan (s : State κ) (p q : Slot) : Bool :=
  (s.procs q).parent == some p && (s.procs q).state == .zombie

/-- The channels that `exit` by `p` wakes, in order. -/
def State.exitChans (s : State κ) (p : Slot) : List (Option Chan) :=
  (s.procs p).parent.map Chan.proc ::
    List.replicate ((List.finRange nproc).countP (s.orphan p)) (some (.proc s.initproc))

theorem wakeup1_orphan (ch : Option Chan) {q : Slot} :
    (s.wakeup1 ch).orphan p q = s.orphan p q := by
  have hfields : ∀ x, (wakeProc ch x).parent = x.parent ∧
      ((wakeProc ch x).state = .zombie ↔ x.state = .zombie) := by
    intro x
    unfold wakeProc requeueProc
    split <;> split <;> simp_all
  unfold State.orphan
  rw [State.wakeup1_procs, Bool.eq_iff_iff, (hfields _).1]
  simp [(hfields _).2]

theorem orphan_update_parent {r q : Slot} (hq : q ≠ r) (a : Option Slot) :
    (s.update r fun x => { x with parent := a }).orphan p q = s.orphan p q := by
  unfold State.orphan
  rw [State.update_procs, if_neg hq]

theorem reparent_loops (hl : l.Nodup) (p : Slot) (h : Readable s) :
    Loops (fun q => (s.procs q).chan) (List.replicate (l.countP (s.orphan p)) (some (.proc s.initproc)))
        s.board (l.foldl (State.reparentRound p) s).board := by
  induction l generalizing s with
  | nil => exact .nil _
  | cons r l ih =>
    obtain ⟨hr, hl⟩ := List.nodup_cons.mp hl
    rw [List.foldl_cons]
    unfold State.reparentRound
    by_cases hchild : (s.procs r).parent = some p
    · -- the change of the parent is not on the board
      let u := s.update r fun x => { x with parent := some s.initproc }
      have hboard : u.board = s.board := s.board_update_id r rfl
      have hread : Readable u := h.update fun hx => queueable_policy.same hx rfl rfl rfl
      have hchan : ∀ q, (u.procs q).chan = (s.procs q).chan := by
        intro q
        simp only [u, State.update_procs]
        split <;> rfl
      have horphans : ∀ q ∈ l, u.orphan p q = s.orphan p q := fun q hq =>
        orphan_update_parent (fun he : q = r => hr (he ▸ hq)) _
      have hstate : (u.procs r).state = (s.procs r).state := by
        simp [u, State.update_procs]
      rw [if_pos hchild]
      by_cases hz : (s.procs r).state = .zombie
      · have horphan : s.orphan p r = true := by simp [State.orphan, hchild, hz]
        have hrounds := wakeup1_rounds hread (some (.proc u.initproc))
        have hrest := ih hl (.of_sane (queueable_keeping.wakeup1 hread.sane (some (.proc u.initproc))))
        have hcount : l.countP ((u.wakeup1 (some (.proc u.initproc))).orphan p) =
            l.countP (s.orphan p) :=
          List.countP_congr fun q hq => by rw [wakeup1_orphan, horphans q hq]
        rw [hcount, (u.wakeup1_rest _).initproc] at hrest
        simp only [wakeup1_chan, hchan] at hrest hrounds
        rw [hboard] at hrounds
        rw [List.countP_cons_of_pos horphan, List.replicate_succ]
        rw [if_pos (hstate.trans hz)]
        exact .cons hrounds hrest
      · have horphan : ¬ s.orphan p r = true := by simp [State.orphan, hz]
        have hrest := ih hl hread
        rw [List.countP_congr fun q hq => by rw [horphans q hq], hboard] at hrest
        simp only [hchan] at hrest
        rw [List.countP_cons_of_neg horphan]
        rw [if_neg fun he => hz (hstate.symm.trans he)]
        exact hrest
    · have horphan : ¬ s.orphan p r = true := by simp [State.orphan, hchild]
      rw [List.countP_cons_of_neg horphan, if_neg hchild]
      exact ih hl h

theorem exitLocked_loops (h : Readable s) (p : Slot) :
    ∃ b, Loops (fun q => (s.procs q).chan) (s.exitChans p) s.board b ∧
      (s.exitLocked p).board = b.set p .zombie := by
  let chan := (s.procs p).parent.map Chan.proc
  have hrounds := wakeup1_rounds h chan
  have hloops := reparent_loops (List.nodup_finRange nproc) p
    (.of_sane (queueable_keeping.wakeup1 h.sane chan))
  have hcount : (List.finRange nproc).countP
      ((s.wakeup1 chan).orphan p) =
      (List.finRange nproc).countP (s.orphan p) :=
    List.countP_congr fun q _ => by rw [wakeup1_orphan]
  rw [hcount, (s.wakeup1_rest _).initproc] at hloops
  simp only [wakeup1_chan] at hloops
  unfold State.exitLocked
  dsimp only
  generalize (List.finRange nproc).foldl (State.reparentRound p) _ = v at hloops ⊢
  exact ⟨v.board, .cons hrounds hloops, v.board_setState p .zombie⟩

/-! ## The other calls -/

def State.sleeper (s : State κ) (pid : Int) : Option Slot :=
  (List.finRange nproc).find? fun p => (s.procs p).pid == pid && (s.procs p).state == .sleeping

/-- The process whose priority `prio_set` by `p` sets. -/
def State.prioTarget (s : State κ) (p : Slot) (pid priority word : Int) : Option Slot :=
  if priority > prioMax ∨ priority < 0 ∨ (s.procs p).fpPriority > priority then none
  else if (s.procs p).pid = pid then some p
  else (s.findPid pid).filter fun q => s.parentPid q word == (s.procs p).pid

theorem kill_offer (h : Readable s) {pid : Int} (hfound : s.findPid pid = some p) :
    Offer (s.board.wake true p) p (s.board.ready p).target (s.kill pid).board := by
  let f : Proc → Proc := fun x =>
    { x with killed := true, state := if x.state = .sleeping then .runnable else x.state }
  have hread : Readable (s.update p f) := h.update fun hx => queueable_policy.same hx rfl rfl rfl
  have hboard : (s.update p f).board = s.board.wake true p := by
    unfold Board.wake
    by_cases hs : (s.procs p).state = .sleeping
    · rw [s.board_update, if_pos ⟨hs, rfl⟩]
      simp [f, Proc.ready, hs, Board.set, State.board]
    · rw [if_neg fun hx => hs hx.1]
      exact s.board_update_id p (by simp [f, Proc.ready, hs])
  have htarget : ((s.update p f).board.ready p).target = (s.board.ready p).target := by
    rw [s.board_update, Board.put_self]
    rfl
  unfold State.kill
  rw [hfound]
  rw [← hboard, ← htarget]
  exact requeue_offer hread p

theorem cvSignal_offer (h : Readable s) {pid : Int} (hfound : s.sleeper pid = some p) :
    Offer (s.board.set p .runnable) p (s.procs p).fpPriority (s.cvSignal pid).board := by
  have hfp : ((s.setState p .runnable).procs p).fpPriority = (s.procs p).fpPriority := by
    simp [State.setState, State.update_procs]
  unfold State.sleeper at hfound
  unfold State.cvSignal
  rw [hfound]
  rw [← State.board_setState, ← hfp]
  exact fpEnqueue_offer (h.setState p .runnable) p

theorem yield_board (h : Readable s) (p : Slot) :
    (s.procs p).queueType = 0 ∧
        Offer (s.board.set p .runnable) p (s.procs p).fpPriority (s.yield p).board ∨
      (s.procs p).queueType = 1 ∧ (s.yield p).board = s.board.set p .runnable := by
  have hread := h.setState p .runnable
  have hfields : ((s.setState p .runnable).procs p) = { s.procs p with state := .runnable } := by
    simp [State.setState, State.update_procs]
  rw [← State.board_setState]
  unfold State.yield
  unfold State.setState at hread hfields ⊢
  generalize s.update p (fun x => { x with state := .runnable }) = u at hread hfields ⊢
  have hzero := (hread.entries p).1.2.2
  rw [if_neg (fun hx => absurd hx.2 (by rw [hzero]; decide))]
  rcases (h.entries p).2.2 with hfp | hhfs
  · rw [if_pos (by rw [hfields]; exact hfp)]
    have hoffer := fpEnqueue_offer hread p
    rw [show (u.procs p).fpPriority = (s.procs p).fpPriority by rw [hfields]] at hoffer
    exact .inl ⟨hfp, hoffer⟩
  · rw [if_neg (by rw [hfields]; simp [hhfs])]
    exact .inr ⟨hhfs, rfl⟩

theorem forkFinish_offer (h : Readable s) (hne : p ≠ np) :
    ∃ x : Ready, x.state = .runnable ∧ x.queueType = (s.procs p).queueType ∧
      x.target = (s.procs p).ready.target ∧
      Offer (s.board.put np x) np x.target (s.forkFinish p np).board := by
  have hread := h.setState np .runnable
  have hcur : (s.setState np .runnable).procs p = s.procs p := by
    rw [State.setState, State.update_procs, if_neg hne]
  have hboard := s.board_setState np .runnable
  have hsame : SameReady ((s.setState np .runnable).forkEnqueue p np) (s.forkFinish p np) :=
    .of_procs rfl rfl
  rw [hsame.board]
  generalize s.setState np .runnable = u at hread hcur hboard ⊢
  have hstate : (u.board.ready np).state = .runnable := by rw [hboard, Board.set_self]
  unfold State.forkEnqueue
  rcases (h.entries p).2.2 with hfp | hhfs
  · rw [hcur, if_pos hfp]
    have hw : Readable (u.update np fun x =>
        { x with fpPriority := (s.procs p).fpPriority, queueType := 0 }) :=
      hread.update fun hx => queueable_policy.fork_fp _ _ hx (h.entries p) hfp
    have hoffer := fpEnqueue_offer hw np
    rw [u.board_update, hboard, Board.set, Board.put_put, State.update_procs, if_pos rfl] at hoffer
    exact ⟨⟨(u.procs np).state, 0, (s.procs p).fpPriority, (u.procs np).hfsPriority⟩, hstate, hfp.symm,
      (if_pos rfl).trans (if_pos hfp).symm, hoffer⟩
  · have hne0 : (s.procs p).queueType ≠ 0 := by
      rw [hhfs]
      decide
    rw [hcur, if_neg hne0, if_pos hhfs]
    have hw : Readable (u.update np fun x =>
        { x with hfsPriority := (s.procs p).hfsPriority, queueType := 1 }) :=
      hread.update fun hx => queueable_policy.fork_hfs _ _ hx (h.entries p) hhfs
    have hoffer := hfsEnqueue_offer hw np
    rw [u.board_update, hboard, Board.set, Board.put_put, State.update_procs, if_pos rfl] at hoffer
    exact ⟨⟨(u.procs np).state, 1, (u.procs np).fpPriority, (s.procs p).hfsPriority⟩, hstate, hhfs.symm,
      (if_neg Int.one_ne_zero).trans (if_neg hne0).symm, hoffer⟩

theorem State.prioSet_board (s : State κ) (p : Slot) (pid priority word : Int) :
    (s.prioSet p pid priority word).board = s.board ∨
      0 ≤ priority ∧ ∃ b, b = s.board.put p { s.board.ready p with queueType := 0 } ∧
        (s.prioTarget p pid priority word = none ∧ (s.prioSet p pid priority word).board = b ∨
          ∃ q, s.prioTarget p pid priority word = some q ∧
            (s.prioSet p pid priority word).board = b.put q { b.ready q with fpPriority := priority }) := by
  unfold State.prioSet State.prioTarget
  by_cases hout : priority > prioMax ∨ priority < 0
  · rw [if_pos hout]
    exact .inl rfl
  rw [if_neg hout]
  have hboard := s.board_update p fun x => { x with queueType := 0 }
  have hpolicy := policy_procs s p
  have hfind := policy_findPid s p pid
  unfold State.underFp at hpolicy hfind
  generalize s.update p (fun x => { x with queueType := 0 }) = u at hboard hpolicy hfind ⊢
  have hppid : ∀ q, u.parentPid q word = s.parentPid q word := by
    intro q
    unfold State.parentPid
    rw [(hpolicy q).2.1]
    cases (s.procs q).parent with
    | none => rfl
    | some a => exact (hpolicy a).1
  right
  refine ⟨by omega, u.board, hboard, ?_⟩
  dsimp only
  rw [hfind, (hpolicy p).1, (hpolicy p).2.2]
  by_cases hlow : (s.procs p).fpPriority > priority
  · rw [if_pos (.inr (.inr hlow)), if_pos hlow]
    exact .inl ⟨rfl, rfl⟩
  rw [if_neg (fun hx => hx.elim (fun h => hout (.inl h)) fun h => h.elim (fun h => hout (.inr h)) hlow),
    if_neg hlow]
  by_cases hself : (s.procs p).pid = pid
  · rw [if_pos hself, if_pos hself]
    exact .inr ⟨p, rfl, u.board_update p _⟩
  rw [if_neg hself, if_neg hself]
  cases s.findPid pid with
  | none => exact .inl ⟨rfl, rfl⟩
  | some q =>
    dsimp only
    rw [hppid]
    by_cases hchild : s.parentPid q word = (s.procs p).pid
    · rw [if_pos hchild]
      exact .inr ⟨q, by simp [Option.filter, hchild], u.board_update q _⟩
    · rw [if_neg hchild]
      exact .inl ⟨by simp [Option.filter, hchild], rfl⟩

theorem dequeued_take (h : Readable s) :
    Take s.board (fpDequeue s.queues).1 s.dequeued.board := by
  obtain ⟨-, hnone | ⟨k, p, xs, hlo, hhi, hbelow, hfirst, hout, hlists⟩⟩ := fpDequeue_lists h.bounds
  · have hboard : s.dequeued.board = s.board := by
      unfold State.board State.dequeued
      rw [hnone.2]
    rw [hnone.1, hboard]
    exact .none
  · have hboard : s.dequeued.board = s.board.setQueue k xs := by
      unfold State.board State.dequeued Board.setQueue
      rw [hlists]
    rw [hout, hboard]
    exact .some hlo hhi hbelow hfirst

end Operations

/-! ## Steps -/

variable [DecidableEq κ]

inductive Shift (s : State κ) : Label κ → Board → Prop
  | same {a : Label κ} : Shift s a s.board
  | settle {a : Label κ} (p : Slot) (st : ProcState) (before : (s.procs p).state ≠ .runnable)
      (after : st ≠ .runnable) : Shift s a (s.board.set p st)
  | pass {c : κ} {o : Option Slot} {b : Board} (take : Take s.board o b)
      (stale : ∀ p, o = some p → (s.procs p).state ≠ .runnable) : Shift s (.schedule c) b
  | take {c : κ} {p : Slot} {b : Board} (take : Take s.board (some p) b)
      (ready : (s.procs p).state = .runnable) : Shift s (.schedule c) (b.set p .running)
  | pick {c : κ} {p : Slot} (at_slot : (s.cpus c).pc = .scan p.val)
      (ready : (s.procs p).state = .runnable) : Shift s (.scan c) (s.board.set p .running)
  | yieldFp {c : κ} {p : Slot} {b : Board} (on : (s.cpus c).proc = some p)
      (running : (s.procs p).state = .running) (fp : (s.procs p).queueType = 0)
      (offer : Offer (s.board.set p .runnable) p (s.procs p).fpPriority b) : Shift s (.yield c) b
  | yieldHfs {c : κ} {p : Slot} (running : (s.procs p).state = .running)
      (hfs : (s.procs p).queueType = 1) : Shift s (.yield c) (s.board.set p .runnable)
  | finish {c : κ} {p np : Slot} {x : Ready} {b : Board} (on : (s.cpus c).proc = some p)
      (forking : s.doing p = .copied np) (embryo : (s.procs np).state = .embryo)
      (state : x.state = .runnable) (type : x.queueType = (s.procs p).queueType)
      (target : x.target = (s.procs p).ready.target)
      (offer : Offer (s.board.put np x) np x.target b) : Shift s (.forkFinish c) b
  | wakeup {n : Nat} {b : Board}
      (loops : Loops (fun p => (s.procs p).chan) [some (.other n)] s.board b) : Shift s (.wakeup n) b
  | kill {pid : Int} {p : Slot} {b : Board} (found : s.findPid pid = some p)
      (offer : Offer (s.board.wake true p) p (s.board.ready p).target b) : Shift s (.kill pid) b
  | cvSignal {pid : Int} {p : Slot} {b : Board} (found : s.sleeper pid = some p)
      (offer : Offer (s.board.set p .runnable) p (s.procs p).fpPriority b) : Shift s (.cvSignal pid) b
  | enterFp {c : κ} {p : Slot} {pid priority word : Int} (on : (s.cpus c).proc = some p)
      (running : (s.procs p).state = .running) (nonneg : 0 ≤ priority) :
      Shift s (.prioSet c pid priority word) (s.board.put p { s.board.ready p with queueType := 0 })
  | prio {c : κ} {p q : Slot} {pid priority word : Int} {b : Board} (on : (s.cpus c).proc = some p)
      (running : (s.procs p).state = .running) (nonneg : 0 ≤ priority)
      (target : s.prioTarget p pid priority word = some q)
      (eq : b = s.board.put p { s.board.ready p with queueType := 0 }) :
      Shift s (.prioSet c pid priority word) (b.put q { b.ready q with fpPriority := priority })
  | exit {c : κ} {p : Slot} {b : Board} (on : (s.cpus c).proc = some p)
      (running : (s.procs p).state = .running)
      (loops : Loops (fun p => (s.procs p).chan) (s.exitChans p) s.board b) :
      Shift s (.exitFinish c) (b.set p .zombie)

omit [DecidableEq κ] in
theorem shift_of_move {t : State κ} {a : Label κ} (h : Readable s) (hmove : ReadyMove s a t) :
    Shift s a t.board := by
  cases hmove with
  | same eq =>
    rw [eq.board]
    exact .same
  | settle p st before after eq =>
    rw [eq.board, s.board_setState]
    exact .settle p st before after
  | pass stale eq =>
    rw [eq.board]
    exact .pass (dequeued_take h) stale
  | @take c t p first ready eq =>
    have htake := dequeued_take h
    rw [first] at htake
    rw [eq.board, State.board_setState]
    exact .take htake ready
  | @pick c t p at_slot ready eq =>
    rw [eq.board, State.board_setState]
    exact .pick at_slot ready
  | @yield c t p on running eq =>
    rw [eq.board]
    rcases yield_board h p with ⟨hfp, hoffer⟩ | ⟨hhfs, hset⟩
    · exact .yieldFp on running hfp hoffer
    · rw [hset]
      exact .yieldHfs running hhfs
  | @finish c t p np on forking running embryo eq =>
    have hne : p ≠ np := fun he => absurd (running.symm.trans (he ▸ embryo)) (by decide)
    obtain ⟨x, hstate, htype, htarget, hoffer⟩ := forkFinish_offer h hne
    rw [eq.board]
    exact .finish on forking embryo hstate htype htarget hoffer
  | @wakeup t n eq =>
    rw [eq.board]
    exact .wakeup (.cons (wakeup1_rounds h (some (.other n))) (.nil _))
  | @kill t pid eq =>
    rw [eq.board]
    cases hfound : s.findPid pid with
    | none =>
      have hkill : s.kill pid = s := by simp [State.kill, hfound]
      rw [hkill]
      exact .same
    | some p => exact .kill hfound (kill_offer h hfound)
  | @cvSignal t pid eq =>
    rw [eq.board]
    cases hfound : s.sleeper pid with
    | none =>
      unfold State.sleeper at hfound
      have hsignal : s.cvSignal pid = s := by simp [State.cvSignal, hfound]
      rw [hsignal]
      exact .same
    | some p => exact .cvSignal hfound (cvSignal_offer h hfound)
  | @prioSet c t p pid priority word on running eq =>
    rw [eq.board]
    rcases s.prioSet_board p pid priority word with hsame | ⟨hnonneg, b, hb, ⟨-, heq⟩ | ⟨q, hq, heq⟩⟩
    · rw [hsame]
      exact .same
    · rw [heq, hb]
      exact .enterFp on running hnonneg
    · rw [heq]
      exact .prio on running hnonneg hq hb
  | @exit c t p on running eq =>
    obtain ⟨b, hloops, hboard⟩ := exitLocked_loops h p
    rw [eq.board, hboard]
    exact .exit on running hloops

/-- What a step does to the board, and the board can be read again. -/
theorem shift_of_step {t : State κ} {a : Label κ} (hm : Matched s.core) (h : Readable s)
    (ha : a.PrioBelow) (hstep : Step s a t) : Shift s a t.board ∧ Readable t := by
  have hmove := ready_of_step hm hstep
  refine ⟨shift_of_move h hmove, .of_sane (queueable_keeping.move h.sane ?_ hmove)⟩
  intro c pid priority word heq _
  rw [heq] at ha
  exact ha

omit [DecidableEq κ] in
theorem booted_readable : Readable (booted κ root slot) :=
  ⟨(represents_empty slot).inBounds, fun p => ⟨booted_inRange p, booted_scheduled p⟩⟩

omit [DecidableEq κ] in
theorem booted_queue (k : Int) :
    (booted κ root slot).board.queue k = [] := by
  simp [State.board, booted, ReadyQueues.lists, ReadyQueues.empty, Ring.contents, Ring.used]

omit [DecidableEq κ] in
theorem booted_free (p : Slot) :
    (booted κ root slot).board.Free p := by
  intro k hk
  rw [Board.InQueue, booted_queue] at hk
  exact List.not_mem_nil hk.2.2

/-- What every shift under a condition keeps holds in every run under it. -/
theorem board_of_run {ok : State κ → Label κ → Prop} {inv : Board → Prop} (hok : ∀ s a, ok s a → a.PrioBelow)
    (hshift : ∀ s a b, Readable s → inv s.board → ok s a → Shift s a b → inv b)
    {as : List (Label κ)} (hrun : Run (Guarded Step ok) (booted κ root slot) as s)
    (h : inv (booted κ root slot).board) : Matched s.core ∧ Readable s ∧ inv s.board := by
  have hstep : ∀ (u : State κ) a v, Matched u.core ∧ Readable u ∧ inv u.board → ok u a → Step u a v →
      Matched v.core ∧ Readable v ∧ inv v.board := by
    rintro u a v ⟨hm, hread, hinv⟩ ha hstep
    obtain ⟨hboard, hread'⟩ := shift_of_step hm hread (hok u a ha) hstep
    exact ⟨hm.move (move_of_step hstep), hread', hshift u a v.board hread hinv ha hboard⟩
  exact hrun.invariant_of_guarded hstep ⟨booted_matched, booted_readable, h⟩

end Xv6.Ptable
