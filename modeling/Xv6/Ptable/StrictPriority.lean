import Xv6.Ptable.Board

/-! # Dispatch by priority

As long as every enqueue finds room and no priority is changed behind the back of the queues, the
process that `scheduler()` takes off a queue has the smallest `fp_priority` of all that are
`RUNNABLE`. The loop over the table that follows knows no priorities.
-/

namespace Xv6.Ptable

open Lib Board

variable {κ : Type}

variable {s : State κ} {a : Label κ} {p : Slot} {b : Board}

/-- Every `RUNNABLE` process under `FP_POLICY` but `p` is queued at its priority, and none is
queued at a priority before its own. -/
structure OrderedBut (p : Slot) (b : Board) : Prop where
  queued : ∀ q, q ≠ p → (b.ready q).state = .runnable → (b.ready q).queueType = 0 →
    q ∈ b.queue (b.ready q).fpPriority
  below : ∀ q k, (b.ready q).queueType = 0 → b.InQueue q k → (b.ready q).fpPriority ≤ k

structure Ordered (b : Board) : Prop where
  queued : ∀ q, (b.ready q).state = .runnable → (b.ready q).queueType = 0 →
    q ∈ b.queue (b.ready q).fpPriority
  below : ∀ q k, (b.ready q).queueType = 0 → b.InQueue q k → (b.ready q).fpPriority ≤ k

section Boards

variable {b b' : Board} {p q : Slot} {k : Int}

/-! ## Changes of an entry -/

theorem Ordered.but (h : Ordered b) (p : Slot) : OrderedBut p b := ⟨fun q _ => h.queued q, h.below⟩

theorem OrderedBut.ordered (h : OrderedBut p b)
    (hp : (b.ready p).state = .runnable → (b.ready p).queueType = 0 → p ∈ b.queue (b.ready p).fpPriority) :
    Ordered b := by
  refine ⟨fun q => ?_, h.below⟩
  by_cases hq : q = p
  · rw [hq]
    exact hp
  · exact h.queued q hq

theorem OrderedBut.put (h : OrderedBut p b) {x : Ready}
    (hx : x.queueType = 0 → ∀ k, b.InQueue p k → x.fpPriority ≤ k) : OrderedBut p (b.put p x) := by
  refine ⟨fun q hq => ?_, fun q k => ?_⟩
  · rw [put_of_ne hq]
    exact h.queued q hq
  by_cases hq : q = p
  · subst hq
    rw [put_self]
    exact fun hfp hk => hx hfp k hk
  · rw [put_of_ne hq]
    exact h.below q k

theorem OrderedBut.set (h : OrderedBut p b) (st : ProcState) : OrderedBut p (b.set p st) :=
  h.put fun hfp k hk => h.below p k hfp hk

theorem OrderedBut.stop (h : OrderedBut p b) {st : ProcState} (hst : st ≠ .runnable) :
    Ordered (b.set p st) := by
  refine (h.set st).ordered fun hx => ?_
  rw [set_self] at hx
  exact absurd hx hst

theorem OrderedBut.wake (h : OrderedBut p b) (wakes : Bool) : OrderedBut p (b.wake wakes p) := by
  unfold Board.wake
  split
  · exact h.set _
  · exact h

/-! ## Queue operations -/

theorem OrderedBut.offer (h : OrderedBut p b) (hk : (b.ready p).queueType = 0 → (b.ready p).fpPriority = k)
    (hroom : (b.ready p).state = .runnable → (b.queue k).length + 1 < queueSize)
    (hoffer : Offer b p k b') : Ordered b' := by
  cases hoffer with
  | idle hidle => exact h.ordered fun hx => absurd hx hidle
  | full hfull =>
    refine h.ordered fun hx => ?_
    have := hroom hx
    omega
  | lapse ready hfull =>
    have := hroom ready
    omega
  | append ready _ =>
    refine ⟨fun q hready hfp => ?_, fun q j hfp hq => ?_⟩
    · rw [setQueue_ready] at hready hfp ⊢
      by_cases hqp : q = p
      · subst hqp
        rw [hk hfp, setQueue_self]
        exact List.mem_append_right _ List.mem_cons_self
      have hmem := h.queued q hqp hready hfp
      by_cases hj : (b.ready q).fpPriority = k
      · rw [hj, setQueue_self]
        exact List.mem_append_left _ (hj ▸ hmem)
      · rwa [setQueue_of_ne hj]
    · rw [setQueue_ready] at hfp ⊢
      rcases inQueue_setQueue hq with hold | ⟨rfl, hmem⟩
      · exact h.below q j hfp hold
      rcases List.mem_append.mp hmem with hold | hnew
      · exact h.below q j hfp ⟨hq.1, hq.2.1, hold⟩
      · rw [List.mem_singleton] at hnew
        subst hnew
        exact le_of_eq (hk hfp)

theorem Board.Offer.length_le (h : Offer b p k b') (j : Int) :
    (b'.queue j).length ≤ (b.queue j).length +
      if (b.ready p).state = .runnable ∧ j = k then 1 else 0 := by
  cases h with
  | idle | full => exact Nat.le_add_right _ _
  | lapse ready hfull =>
    by_cases hj : j = k
    · subst hj
      rw [setQueue_self]
      exact Nat.zero_le _
    · rw [setQueue_of_ne hj]
      exact Nat.le_add_right _ _
  | append ready hroom =>
    by_cases hj : j = k
    · subst hj
      rw [setQueue_self, if_pos ⟨ready, rfl⟩, List.length_append, List.length_singleton]
    · rw [setQueue_of_ne hj]
      exact Nat.le_add_right _ _

/-- The process that is dequeued, if it runs next, is missed in no queue. -/
theorem Ordered.take {o : Option Slot} (h : Ordered b) (htake : Take b o b') :
    (o = none ∧ b' = b) ∨ ∃ p, o = some p ∧ OrderedBut p b' ∧ b'.ready = b.ready := by
  cases htake with
  | none => exact .inl ⟨rfl, rfl⟩
  | @some k p xs lo hi below first =>
    refine .inr ⟨p, rfl, ⟨fun q hqp hready hfp => ?_, fun q j hfp hq => ?_⟩, rfl⟩
    · have hmem := h.queued q hready hfp
      rw [setQueue_ready]
      by_cases hj : (b.ready q).fpPriority = k
      · rw [hj, first] at hmem
        rw [hj, setQueue_self]
        exact (List.mem_cons.mp hmem).resolve_left hqp
      · rwa [setQueue_of_ne hj]
    · rcases inQueue_setQueue hq with hold | ⟨rfl, hmem⟩
      · exact h.below q j hfp hold
      · exact h.below q j hfp ⟨hq.1, hq.2.1, first ▸ List.mem_cons_of_mem p hmem⟩

/-! ## Loops -/

/-- The loop offers the process to queue `k`. -/
def Board.offeredAt (b : Board) (wakes : Slot → Bool) (k : Int) (p : Slot) : Bool :=
  ((b.ready p).state == .runnable || (b.ready p).state == .sleeping && wakes p) &&
    (b.ready p).target == k

/-- How many processes the loop over the table offers to queue `k`. -/
def Board.demand (b : Board) (wakes : Slot → Bool) (k : Int) : Nat :=
  (List.finRange nproc).countP (b.offeredAt wakes k)

theorem offeredAt_of_wake {wakes : Slot → Bool}
    (h : ((b.wake (wakes p) p).ready p).state = .runnable) :
    b.offeredAt wakes (b.ready p).target p = true := by
  unfold Board.wake at h
  split at h
  · rename_i hs
    simp [Board.offeredAt, hs.1, hs.2]
  · simp [Board.offeredAt, h]

theorem Ordered.rounds {wakes : Slot → Bool} {l : List Slot} (hl : l.Nodup) (h : Ordered b)
    (hroom : ∀ k : Int, 0 ≤ k → k < prioMax →
      (b.queue k).length + l.countP (b.offeredAt wakes k) < queueSize)
    (htarget : ∀ p, 0 ≤ (b.ready p).target ∧ (b.ready p).target < prioMax)
    (hrounds : Rounds wakes l b b') :
    Ordered b' ∧ ∀ k, (b'.queue k).length ≤ (b.queue k).length + l.countP (b.offeredAt wakes k) := by
  induction hrounds with
  | nil b => exact ⟨h, fun k => Nat.le_add_right _ _⟩
  | @cons p l b b' b'' offer rest ih =>
    obtain ⟨hp, hl⟩ := List.nodup_cons.mp hl
    have hordered : Ordered b' := by
      refine ((h.but p).wake _).offer (fun hfp => (if_pos hfp).symm.trans (wake_target _)) ?_ offer
      intro hready
      have hcount := hroom _ (htarget p).1 (htarget p).2
      rw [List.countP_cons_of_pos (offeredAt_of_wake hready)] at hcount
      rw [wake_queue]
      omega
    -- the entries of the processes still to come have not changed
    have hready : ∀ q, q ≠ p → b'.ready q = b.ready q := by
      intro q hq
      rw [offer.ready_eq, wake_of_ne _ hq]
    have hcount : ∀ k, l.countP (b'.offeredAt wakes k) = l.countP (b.offeredAt wakes k) := by
      intro k
      refine List.countP_congr fun q hq => ?_
      unfold Board.offeredAt
      rw [hready q fun he => hp (he ▸ hq)]
    have hlength : ∀ k, (b'.queue k).length + l.countP (b.offeredAt wakes k) ≤
        (b.queue k).length + (p :: l).countP (b.offeredAt wakes k) := by
      intro k
      have hle := offer.length_le k
      rw [wake_queue] at hle
      split at hle
      · rename_i hs
        obtain ⟨hready, hk⟩ := hs
        rw [hk, List.countP_cons_of_pos (offeredAt_of_wake hready)]
        rw [hk] at hle
        omega
      · rw [List.countP_cons]
        omega
    have htarget' : ∀ q, 0 ≤ (b'.ready q).target ∧ (b'.ready q).target < prioMax := by
      intro q
      by_cases hq : q = p
      · subst hq
        rw [offer.ready_eq, wake_target]
        exact htarget q
      · rw [hready q hq]
        exact htarget q
    obtain ⟨hordered', hlength'⟩ := ih hl hordered
      (fun k hlo hhi => by rw [hcount]; exact lt_of_le_of_lt (hlength k) (hroom k hlo hhi)) htarget'
    refine ⟨hordered', fun k => (hlength' k).trans ?_⟩
    rw [hcount]
    exact hlength k

theorem Ordered.loops {chan : Slot → Option Chan} {chs all : List (Option Chan)}
    (hall : ∀ ch ∈ chs, ch ∈ all) (h : Ordered b)
    (hroom : ∀ k : Int, 0 ≤ k → k < prioMax → (b.queue k).length + chs.length *
      b.demand (fun p => decide (chan p ∈ all)) k < queueSize)
    (htarget : ∀ p, 0 ≤ (b.ready p).target ∧ (b.ready p).target < prioMax)
    (hloops : Loops chan chs b b') : Ordered b' := by
  induction hloops with
  | nil b => exact h
  | @cons ch chs b b' b'' rounds rest ih =>
    have hch := hall ch List.mem_cons_self
    -- one loop offers no more than all of them, and wakes only processes that count already
    have hone : ∀ k, (List.finRange nproc).countP (b.offeredAt (fun p => decide (chan p = ch)) k) ≤
        b.demand (fun p => decide (chan p ∈ all)) k := by
      intro k
      refine List.countP_mono_left fun p _ hp => ?_
      simp only [Board.offeredAt, Bool.and_eq_true, Bool.or_eq_true, decide_eq_true_eq] at hp ⊢
      obtain ⟨hready | ⟨hs, hc⟩, hk⟩ := hp
      · exact ⟨.inl hready, hk⟩
      · exact ⟨.inr ⟨hs, hc ▸ hch⟩, hk⟩
    have hlater : ∀ k, b'.demand (fun p => decide (chan p ∈ all)) k ≤
        b.demand (fun p => decide (chan p ∈ all)) k := by
      intro k
      refine List.countP_mono_left fun p _ hp => ?_
      rcases rounds.ready_cases p with heq | ⟨⟨hs, hc⟩, heq⟩
      · simpa only [Board.offeredAt, heq] using hp
      · simp only [Board.offeredAt, heq, Bool.and_eq_true] at hp
        simp only [Board.offeredAt, hs, of_decide_eq_true hc, hch, decide_true, Bool.and_eq_true]
        exact ⟨rfl, hp.2⟩
    have hmul : ∀ k, (chs.length + 1) *
        b.demand (fun p => decide (chan p ∈ all)) k =
        b.demand (fun p => decide (chan p ∈ all)) k +
          chs.length * b.demand (fun p => decide (chan p ∈ all)) k := by
      intro k
      rw [Nat.add_mul, Nat.one_mul, Nat.add_comm]
    simp only [List.length_cons, hmul] at hroom
    obtain ⟨hordered, hlength⟩ := h.rounds (List.nodup_finRange nproc)
      (fun k hlo hhi => by have := hroom k hlo hhi; have := hone k; omega) htarget rounds
    refine ih (fun c hc => hall c (List.mem_cons_of_mem ch hc)) hordered (fun k hlo hhi => ?_) fun p => ?_
    · have := Nat.mul_le_mul_left chs.length (hlater k)
      have := hroom k hlo hhi
      have := hone k
      have := hlength k
      omega
    · rcases rounds.ready_cases p with heq | ⟨-, heq⟩
      · rw [heq]
        exact htarget p
      · rw [heq]
        exact htarget p

end Boards

/-! ## Steps that keep the order -/

/-- Every process is under `FP_POLICY` with a priority below `PRIO_MAX`. -/
def State.AllFp (s : State κ) : Prop :=
  ∀ p, (s.procs p).state ≠ .unused → (s.procs p).queueType = 0 ∧ (s.procs p).fpPriority < prioMax

def State.Room (s : State κ) (k : Int) : Prop := (s.board.queue k).length + 1 < queueSize

/-- All that loops over the table for these channels offer fits into the queues. -/
def State.LoopsRoom (s : State κ) (chs : List (Option Chan)) : Prop :=
  ∀ k : Int, 0 ≤ k → k < prioMax → (s.board.queue k).length + chs.length *
    s.board.demand (fun p => decide ((s.procs p).chan ∈ chs)) k < queueSize

def State.NotBefore (s : State κ) (p : Slot) (k : Int) : Prop :=
  ∀ j : Int, 0 ≤ j → j < k → p ∉ s.board.queue j

/-- The condition under which a step keeps the order: what it enqueues finds room, a priority that
it sets agrees with the queues, and the loop of `scheduler()` over the table, while all processes
are under `FP_POLICY`, meets no `RUNNABLE` process but one of the smallest priority. -/
def State.Strict (s : State κ) : Label κ → Prop
  | .scan c => ∀ p : Slot, (s.cpus c).pc = .scan p.val → (s.procs p).state = .runnable → s.AllFp →
      ∀ q, (s.procs q).state = .runnable → (s.procs p).fpPriority ≤ (s.procs q).fpPriority
  | .yield c => ∀ p, (s.cpus c).proc = some p → (s.procs p).queueType = 0 → s.Room (s.procs p).fpPriority
  | .forkFinish c => ∀ p np, (s.cpus c).proc = some p → s.doing p = .copied np →
      s.Room (s.procs p).ready.target ∧
        ((s.procs p).queueType = 0 → s.NotBefore np (s.procs p).fpPriority)
  | .wakeup n => s.LoopsRoom [some (.other n)]
  | .exitFinish c => ∀ p, (s.cpus c).proc = some p → s.LoopsRoom (s.exitChans p)
  | .kill pid => ∀ p, s.findPid pid = some p →
      (s.procs p).state = .runnable ∨ (s.procs p).state = .sleeping → s.Room (s.procs p).ready.target
  | .cvSignal pid => ∀ p, s.sleeper pid = some p → s.Room (s.procs p).fpPriority
  | .prioSet c pid priority word => priority < prioMax ∧ (0 ≤ priority → ∀ p, (s.cpus c).proc = some p →
      s.NotBefore p (s.procs p).fpPriority ∧ ∀ q, s.prioTarget p pid priority word = some q →
        ((s.procs q).queueType = 0 ∨ q = p → s.NotBefore q priority) ∧
          ((s.procs q).state = .runnable → (s.procs q).queueType = 0 → q ∈ s.board.queue priority))
  | _ => True

instance (s : State κ) : Decidable s.AllFp :=
  inferInstanceAs (Decidable (∀ p, (s.procs p).state ≠ .unused → _ ∧ _))

instance (s : State κ) (k : Int) : Decidable (s.Room k) := inferInstanceAs (Decidable (_ < _))

instance (s : State κ) (chs : List (Option Chan)) : Decidable (s.LoopsRoom chs) :=
  inferInstanceAs (Decidable (∀ k : Int, 0 ≤ k → k < prioMax → _ < _))

instance (s : State κ) (p : Slot) (k : Int) : Decidable (s.NotBefore p k) :=
  inferInstanceAs (Decidable (∀ j : Int, 0 ≤ j → j < k → p ∉ s.board.queue j))

instance (s : State κ) : ∀ a, Decidable (s.Strict a)
  | .scan _ => inferInstanceAs (Decidable (∀ _, _ → _ → _ → ∀ _, _ → _ ≤ _))
  | .yield _ => inferInstanceAs (Decidable (∀ _, _ → _ → s.Room _))
  | .forkFinish _ => inferInstanceAs (Decidable (∀ _ _, _ → _ → _ ∧ _))
  | .wakeup _ => inferInstanceAs (Decidable (s.LoopsRoom _))
  | .exitFinish _ => inferInstanceAs (Decidable (∀ _, _ → s.LoopsRoom _))
  | .kill _ => inferInstanceAs (Decidable (∀ _, _ → _ → s.Room _))
  | .cvSignal _ => inferInstanceAs (Decidable (∀ _, _ → s.Room _))
  | .prioSet _ _ _ _ => inferInstanceAs (Decidable (_ ∧ (_ → ∀ _, _ → _ ∧ ∀ _, _ → _ ∧ _)))
  | .schedule _ | .resume _ | .forkAlloc _ | .forkKstackFail _ | .forkInit _ | .forkInherit _
  | .forkCopyFail _ | .forkCopy _ | .exitPrepare _ | .wait _ | .waitScan _ | .sleep _ _ | .cvWait _
  | .cvWaitFull _ | .createAndEnter _ | .store _ _ => isTrue trivial

theorem State.Strict.prioBelow (h : s.Strict a) : a.PrioBelow := by
  cases a with
  | prioSet => exact h.1
  | _ => trivial

theorem State.NotBefore.le {j k : Int} (h : s.NotBefore p k) (hj : s.board.InQueue p j) : k ≤ j :=
  Int.not_lt.mp fun hlt => h j hj.1 hlt hj.2.2

theorem Ordered.shift [DecidableEq κ] (hread : Readable s) (h : Ordered s.board) (ha : s.Strict a)
    (hshift : Shift s a b) : Ordered b := by
  have hloops : ∀ {chs b}, s.LoopsRoom chs → Loops (fun p => (s.procs p).chan) chs s.board b →
      Ordered b := fun hroom hl => h.loops (fun _ hc => hc) hroom hread.target hl
  have hcaller : ∀ {p}, (s.procs p).state = .running → s.NotBefore p (s.procs p).fpPriority →
      Ordered (s.board.put p { s.board.ready p with queueType := 0 }) := by
    intro p running hbefore
    refine OrderedBut.ordered ((h.but p).put fun _ k hk => hbefore.le hk) fun hx => ?_
    rw [put_self] at hx
    exact absurd (running.symm.trans hx) (by decide)
  cases hshift with
  | same => exact h
  | settle p st before after => exact (h.but p).stop after
  | @pass c o b take stale =>
    rcases h.take take with ⟨-, heq⟩ | ⟨p, ho, hbut, hready⟩
    · rw [heq]
      exact h
    · refine hbut.ordered fun hx => absurd ?_ (stale p ho)
      rwa [hready] at hx
  | @take c p b take ready =>
    rcases h.take take with ⟨ho, -⟩ | ⟨p', ho, hbut, hready⟩
    · cases ho
    · cases ho
      exact hbut.stop (by decide)
  | @pick c p at_slot ready => exact (h.but p).stop (by decide)
  | @yieldFp c p b on running fp offer =>
    refine ((h.but p).set _).offer (fun _ => ?_) (fun _ => ha p on fp) offer
    rw [set_self]
    rfl
  | @yieldHfs c p running hfs =>
    refine ((h.but p).set _).ordered fun _ hfp => absurd ?_ (show (1 : Int) ≠ 0 by decide)
    rw [set_self] at hfp
    exact hfs.symm.trans hfp
  | @finish c p np x b on forking embryo state type target offer =>
    obtain ⟨hroom, hbefore⟩ := ha p np on forking
    have hfp : x.queueType = 0 → x.fpPriority = x.target := fun hfp => (if_pos hfp).symm
    have hput : OrderedBut np (s.board.put np x) := by
      refine (h.but np).put fun hx k hk => ?_
      have hpar : (s.procs p).queueType = 0 := type.symm.trans hx
      have heq : (s.procs p).ready.target = (s.procs p).fpPriority := if_pos hpar
      rw [hfp hx, target, heq]
      exact (hbefore hpar).le hk
    refine hput.offer (fun hx => ?_) (fun _ => target ▸ hroom) offer
    rw [put_self] at hx ⊢
    exact hfp hx
  | wakeup loops => exact hloops ha loops
  | @kill pid p b found offer =>
    refine ((h.but p).wake _).offer (fun hfp => (if_pos hfp).symm.trans (wake_target _)) (fun hx => ?_) offer
    rw [wake_queue]
    refine ha p found ?_
    unfold Board.wake at hx
    split at hx
    · rename_i hs
      exact .inr hs.1
    · exact .inl hx
  | @cvSignal pid p b found offer =>
    refine ((h.but p).set _).offer (fun _ => ?_) (fun _ => ha p found) offer
    rw [set_self]
    rfl
  | @enterFp c p pid priority word on running nonneg => exact hcaller running (ha.2 nonneg p on).1
  | @prio c p q pid priority word b on running nonneg target eq =>
    obtain ⟨hown, htarget⟩ := ha.2 nonneg p on
    obtain ⟨hbefore, hqueued⟩ := htarget q target
    have hb : Ordered b := eq ▸ hcaller running hown
    have hother : q ≠ p → b.ready q = s.board.ready q := by
      intro hqp
      rw [eq, put_of_ne hqp]
    have hqueue : b.queue = s.board.queue := by rw [eq, put_queue]
    have hinq : ∀ k, b.InQueue q k → s.board.InQueue q k := by
      intro k hk
      rwa [Board.InQueue, hqueue] at hk
    refine OrderedBut.ordered ((hb.but q).put fun hx k hk => ?_) fun hx hfp => ?_
    · refine (hbefore ?_).le (hinq k hk)
      by_cases hqp : q = p
      · exact .inr hqp
      · have htype : (b.ready q).queueType = 0 := hx
        rw [hother hqp] at htype
        exact .inl htype
    · rw [put_self] at hx hfp ⊢
      rw [put_queue, hqueue]
      have hqp : q ≠ p := by
        intro hqp
        subst hqp
        rw [eq, put_self] at hx
        exact absurd (running.symm.trans hx) (by decide)
      rw [hother hqp] at hx hfp
      exact hqueued hx hfp
  | @exit c p b on running loops => exact ((hloops (ha p on) loops).but p).stop (by decide)

/-! ## Dispatch -/

theorem Shift.dispatched [DecidableEq κ] (h : Shift s a b) (ready : (s.procs p).state = .runnable)
    (running : (b.ready p).state = .running) : (∃ c b', a = .schedule c ∧ Take s.board (some p) b') ∨
      ∃ c, a = .scan c ∧ (s.cpus c).pc = .scan p.val := by
  have hready : (s.board.ready p).state = .runnable := ready
  have hstill : ∀ {goal : Prop}, (s.board.ready p).state = .running → goal :=
    fun h => absurd (hready.symm.trans h) (by decide)
  have hawake : (s.board.ready p).state ≠ .sleeping := by simp [hready]
  -- a change of `p` that does not let it run, or a change of another process
  have hput : ∀ {b : Board} {q x}, (b.ready p).state = .runnable → x.state ≠ .running →
      ((b.put q x).ready p).state ≠ .running := by
    intro b q x hb hx
    by_cases hq : p = q
    · rwa [hq, put_self]
    · simp [put_of_ne hq, hb]
  have hkeep : ∀ {b : Board} {q x}, x.state = (b.ready q).state →
      ((b.put q x).ready p).state = (b.ready p).state := by
    intro b q x hx
    by_cases hq : p = q
    · rw [hq, put_self, hx]
    · rw [put_of_ne hq]
  cases h with
  | same => exact hstill running
  | settle q st before after =>
    by_cases hq : p = q
    · exact absurd ready (hq ▸ before)
    · rw [set_of_ne _ hq] at running
      exact hstill running
  | pass take stale =>
    rw [take.ready_eq] at running
    exact hstill running
  | @take c q b take _ =>
    by_cases hq : p = q
    · subst hq
      exact .inl ⟨c, b, rfl, take⟩
    · rw [set_of_ne _ hq, take.ready_eq] at running
      exact hstill running
  | @pick c q at_slot _ =>
    by_cases hq : p = q
    · subst hq
      exact .inr ⟨c, rfl, at_slot⟩
    · rw [set_of_ne _ hq] at running
      exact hstill running
  | yieldFp _ _ _ offer | cvSignal _ offer =>
    rw [offer.ready_eq] at running
    exact absurd running (hput hready (by simp))
  | yieldHfs => exact absurd running (hput hready (by simp))
  | finish _ _ _ state _ _ offer =>
    rw [offer.ready_eq] at running
    exact absurd running (hput hready (by simp [state]))
  | @kill pid q b _ offer =>
    rw [offer.ready_eq] at running
    unfold Board.wake at running
    split at running
    · exact absurd running (hput hready (by simp))
    · exact hstill running
  | wakeup loops =>
    rw [loops.ready_of_awake hawake] at running
    exact hstill running
  | @enterFp c q pid priority word _ _ _ =>
    rw [hkeep (by rfl)] at running
    exact hstill running
  | @prio c q r pid priority word b _ _ _ _ eq =>
    rw [hkeep (by rfl), eq, hkeep (by rfl)] at running
    exact hstill running
  | @exit c q b _ _ loops =>
    have hb := loops.ready_of_awake hawake
    exact absurd running (hput (hb ▸ hready) (by simp))

theorem Ordered.take_least {b' : Board} {q : Slot} (h : Ordered b) (htake : Take b (some p) b')
    (hp : (b.ready p).queueType = 0) (hq : (b.ready q).queueType = 0) (ready : (b.ready q).state = .runnable)
    (hrange : 0 ≤ (b.ready q).fpPriority) : (b.ready p).fpPriority ≤ (b.ready q).fpPriority := by
  cases htake with
  | @some k p xs lo hi below first =>
    have hk : (b.ready p).fpPriority ≤ k := h.below p k hp ⟨lo, hi, first ▸ List.mem_cons_self⟩
    have hmem := h.queued q ready hq
    -- the queues before `k` are empty
    have hle : k ≤ (b.ready q).fpPriority := by
      refine Int.not_lt.mp fun hlt => ?_
      rw [below _ hrange hlt] at hmem
      exact List.not_mem_nil hmem
    exact hk.trans hle

/-- Where every step meets the condition, the process that a processor switches to while all
processes are under `FP_POLICY` has the smallest `fp_priority` of all that are `RUNNABLE`. -/
theorem strict_dispatch [DecidableEq κ] (root : Nat) (slot : Int → Int → Slot) (as : List (Label κ))
    (s t : State κ) (a : Label κ) (c : κ) (p : Slot)
    (hrun : Run (Guarded Step State.Strict) (booted κ root slot) as s) (hfp : s.AllFp)
    (hstep : Guarded Step State.Strict s a t) (hold : (s.cpus c).proc ≠ some p)
    (hnew : (t.cpus c).proc = some p) :
    ∀ q, (s.procs q).state = .runnable → (s.procs p).fpPriority ≤ (s.procs q).fpPriority := by
  have hboot : Ordered (booted κ root slot).board := by
    refine ⟨fun p ready hp => ?_, fun p k _ hk => absurd hk (booted_free p k)⟩
    by_cases hp0 : p = 0
    · simp [State.board, Proc.ready, booted, initcode, hp0] at hp
    · simp [State.board, Proc.ready, booted, blank, hp0] at ready
  obtain ⟨hm, hread, hordered⟩ := board_of_run (fun s a ha => ha.prioBelow)
    (fun s a b hread hinv ha hshift => hinv.shift hread ha hshift) hrun hboot
  obtain ⟨ha, hstep⟩ := hstep
  have hmove := move_of_step hstep
  have ready : (s.procs p).state = .runnable := hmove.switch hold hnew
  have running : (t.procs p).state = .running := (hm.move hmove).placed.running c p hnew
  have hlive : ∀ q, (s.procs q).state = .runnable → (s.procs q).queueType = 0 := by
    intro q hq
    exact (hfp q (by simp [hq])).1
  intro q hq
  obtain ⟨hshift, -⟩ := shift_of_step hm hread ha.prioBelow hstep
  rcases hshift.dispatched ready running with ⟨c', b', -, htake⟩ | ⟨c', rfl, hpc⟩
  · exact hordered.take_least htake (hlive p ready) (hlive q hq) hq (hread.entries q).1.1
  · exact ha p hpc ready hfp q hq

/-- `init` under `FP_POLICY` has made a child; the other processor takes it. -/
theorem strict_dispatch_child : ∃ s t, Run (Guarded Step State.Strict) (booted (Fin 2) 1 fun _ _ => 0)
      (initRuns 0 ++ [.prioSet 0 1 0 0] ++ forkCall 0) s ∧ Guarded Step State.Strict s (.schedule 1) t ∧
      (t.cpus 1).proc = some 1 ∧
      ∀ q, (s.procs q).state = .runnable → (s.procs 1).fpPriority ≤ (s.procs q).fpPriority := by
  simp only [exists_and_left]
  refine Run.foundOk id (fun s => (s.AllFp ∧ (s.cpus 1).proc = none) ∧
    (s.schedule 1).any fun t => (t.cpus 1).proc = some 1) (by decide +kernel) ?_
  rintro s hrun ⟨⟨hfp, hold⟩, hdispatch⟩
  obtain ⟨t, ht, hnew⟩ := exists_of_any hdispatch
  have hstep : Guarded Step State.Strict s (.schedule 1) t := ⟨trivial, ht⟩
  exact ⟨t, hstep, hnew, strict_dispatch 1 (fun _ _ => 0) _ s t _ 1 1 hrun hfp hstep (by simp [hold]) hnew⟩

/-- Two children, of priorities 5 and 0: when `init` goes to sleep, the loop over the table goes
on with the first of them. -/
theorem scan_ignores_priority : ∃ s t, Run Step (booted (Fin 1) 1 fun _ _ => 0)
      (initRuns 0 ++ [.prioSet 0 1 0 0] ++ forkCall 0 ++ forkCall 0 ++ [.prioSet 0 2 5 0, .sleep 0 7]) s ∧
      s.AllFp ∧ (s.cpus 0).proc = none ∧ Step s (.scan 0) t ∧ (t.cpus 0).proc = some 1 ∧
      (s.procs 1).fpPriority = 5 ∧ (s.procs 2).state = .runnable ∧ (s.procs 2).fpPriority = 0 := by
  simp only [exists_and_left]
  refine Run.found id (fun s => s.AllFp ∧ (s.cpus 0).proc = none ∧ (s.scan 0).any fun t =>
    (t.cpus 0).proc = some 1 ∧ (s.procs 1).fpPriority = 5 ∧ (s.procs 2).state = .runnable ∧
      (s.procs 2).fpPriority = 0) (by decide +kernel) ?_
  exact fun s _ h => ⟨h.1, h.2.1, exists_of_any h.2.2⟩

end Xv6.Ptable
