import Mathlib.Data.List.Nodup
import Xv6.Ptable.Board

/-! # The ready queues in step with the table

Each process at most once in the ready queues, and each process there `RUNNABLE` and in the queue
of its priority. `wakeup1` and `kill` enqueue processes that are queued already, the loop of
`scheduler()` over the table leaves the process it picks in its queue, and `prio_set` and
`cv_signal` let the queue and the priority differ; the other steps keep the two in step.
-/

namespace Xv6.Ptable

open Lib Board

variable {κ : Type}

variable {s : State κ} {b : Board}

structure InStep (b : Board) : Prop where
  nodup : ∀ k : Int, 0 ≤ k → k < prioMax → (b.queue k).Nodup
  runnable : ∀ p k, b.InQueue p k → (b.ready p).state = .runnable
  target : ∀ p k, b.InQueue p k → (b.ready p).target = k

namespace InStep

variable {b b' : Board} {p q : Slot} {k : Int}

theorem free (h : InStep b) (hp : (b.ready p).state ≠ .runnable) : b.Free p :=
  fun k hk => hp (h.runnable p k hk)

/-! ## Changes of an entry -/

theorem put (h : InStep b) {x : Ready}
    (hx : b.Free p ∨ x.state = (b.ready p).state ∧ x.target = (b.ready p).target) :
    InStep (b.put p x) := by
  have hready : ∀ q k, b.InQueue q k → ((b.put p x).ready q).state = (b.ready q).state ∧
      ((b.put p x).ready q).target = (b.ready q).target := by
    intro q k hq
    by_cases hqp : q = p
    · subst hqp
      rw [put_self]
      exact hx.resolve_left fun hfree => hfree k hq
    · rw [put_of_ne hqp]
      exact ⟨rfl, rfl⟩
  refine ⟨h.nodup, fun q k hq => ?_, fun q k hq => ?_⟩
  · rw [(hready q k hq).1]
    exact h.runnable q k hq
  · rw [(hready q k hq).2]
    exact h.target q k hq

theorem set (h : InStep b) (hp : b.Free p) (st : ProcState) : InStep (b.set p st) := h.put (.inl hp)

theorem wake (h : InStep b) (hp : b.Free p) (wakes : Bool) : InStep (b.wake wakes p) := by
  unfold Board.wake
  split
  · exact h.set hp _
  · exact h

end InStep

namespace Board

variable {b b' : Board} {p q : Slot} {k : Int}

theorem Free.wake (h : b.Free q) (wakes : Bool) : (b.wake wakes p).Free q := by
  intro k hk
  unfold InQueue at hk
  rw [wake_queue] at hk
  exact h k hk

theorem Free.offer (h : b.Free q) (hq : q ≠ p) (hoffer : Offer b p k b') : b'.Free q := by
  intro j hj
  rcases hoffer.inQueue hj with hj | ⟨he, -⟩
  · exact h j hj
  · exact hq he

end Board

namespace InStep

variable {b b' : Board} {p q : Slot} {k : Int}

/-! ## Queue operations -/

theorem nodup_setQueue {xs : List Slot} (h : ∀ j : Int, 0 ≤ j → j < prioMax → (b.queue j).Nodup)
    (hxs : 0 ≤ k → k < prioMax → xs.Nodup) (j : Int) (hlo : 0 ≤ j) (hhi : j < prioMax) :
    ((b.setQueue k xs).queue j).Nodup := by
  by_cases hj : j = k
  · subst hj
    rw [setQueue_self]
    exact hxs hlo hhi
  · rw [setQueue_of_ne hj]
    exact h j hlo hhi

theorem offer (h : InStep b) (hp : b.Free p) (hk : (b.ready p).target = k) (hoffer : Offer b p k b') :
    InStep b' := by
  have hnodup : ∀ j : Int, 0 ≤ j → j < prioMax → (b'.queue j).Nodup := by
    intro j hlo hhi
    cases hoffer with
    | idle | full => exact h.nodup j hlo hhi
    | lapse ready hfull => exact nodup_setQueue h.nodup (fun _ _ => List.nodup_nil) j hlo hhi
    | append ready hroom =>
      refine nodup_setQueue h.nodup (fun hlo hhi => ?_) j hlo hhi
      refine List.nodup_append.mpr ⟨h.nodup k hlo hhi, (List.pairwise_singleton _ p), ?_⟩
      intro x hx y hy hxy
      rw [hxy, List.mem_singleton.mp hy] at hx
      exact hp k ⟨hlo, hhi, hx⟩
  have hready := hoffer.ready_eq
  refine ⟨hnodup, fun q j hq => ?_, fun q j hq => ?_⟩
  · rw [hready]
    rcases hoffer.inQueue hq with hq | ⟨rfl, -, ready⟩
    · exact h.runnable q j hq
    · exact ready
  · rw [hready]
    rcases hoffer.inQueue hq with hq | ⟨rfl, rfl, -⟩
    · exact h.target q j hq
    · exact hk

theorem take {o : Option Slot} (h : InStep b) (htake : Take b o b') :
    InStep b' ∧ ∀ p, o = some p → b'.Free p := by
  cases htake with
  | none => exact ⟨h, nofun⟩
  | @some k p xs lo hi below first =>
    have hcons : (p :: xs).Nodup := first ▸ h.nodup k lo hi
    have hsub : ∀ {q j}, (b.setQueue k xs).InQueue q j → b.InQueue q j := by
      intro q j hq
      rcases inQueue_setQueue hq with hq | ⟨rfl, hmem⟩
      · exact hq
      · exact ⟨hq.1, hq.2.1, first ▸ List.mem_cons_of_mem p hmem⟩
    refine ⟨⟨nodup_setQueue h.nodup fun _ _ => hcons.of_cons, fun q j hq => h.runnable q j (hsub hq),
      fun q j hq => h.target q j (hsub hq)⟩, ?_⟩
    intro q hq j hj
    obtain rfl := Option.some.inj hq
    -- it is in queue `k` only, and was there once
    have hjk : j = k := (h.target p j (hsub hj)).symm.trans
      (h.target p k ⟨lo, hi, first ▸ List.mem_cons_self⟩)
    subst hjk
    have hmem := hj.2.2
    rw [setQueue_self] at hmem
    exact (List.nodup_cons.mp hcons).1 hmem

/-! ## Loops -/

theorem rounds {wakes : Slot → Bool} {l : List Slot} (hl : l.Nodup) (h : InStep b)
    (hfree : ∀ p ∈ l, b.Free p) (hrounds : Rounds wakes l b b') : InStep b' := by
  induction hrounds with
  | nil b => exact h
  | @cons p l b b' b'' offer rest ih =>
    obtain ⟨hp, hl⟩ := List.nodup_cons.mp hl
    have hfree_p := hfree p List.mem_cons_self
    refine ih hl ((h.wake hfree_p _).offer (hfree_p.wake _) (wake_target _) offer) fun q hq => ?_
    have hqp : q ≠ p := fun he => hp (he ▸ hq)
    exact ((hfree q (List.mem_cons_of_mem p hq)).wake _).offer hqp offer

/-- Several loops are fine if all but the last find nobody. -/
theorem loops {chan : Slot → Option Chan} {chs : List (Option Chan)} (h : InStep b)
    (hfree : ∀ p, b.Free p)
    (hidle : ∀ ch ∈ chs.dropLast, ∀ p, (b.ready p).state ≠ .runnable ∧
      ¬ ((b.ready p).state = .sleeping ∧ chan p = ch))
    (hloops : Loops chan chs b b') : InStep b' := by
  induction hloops with
  | nil b => exact h
  | @cons ch chs b b' b'' rounds rest ih =>
    cases chs with
    | nil =>
      cases rest
      exact h.rounds (List.nodup_finRange nproc) (fun p _ => hfree p) rounds
    | cons ch' chs =>
      have hsame : b' = b := by
        refine rounds.eq_of_idle fun p _ => ?_
        obtain ⟨hready, hsleep⟩ := hidle ch (by simp) p
        exact ⟨hready, fun hx => hsleep ⟨hx.1, of_decide_eq_true hx.2⟩⟩
      subst hsame
      exact ih h hfree fun c hc => hidle c (by simp [hc])

end InStep

/-! ## Steps that keep the queues in step -/

/-- `wakeup1(ch)` offers the process to its queue. -/
def State.Offered (s : State κ) (ch : Option Chan) (p : Slot) : Prop :=
  (s.procs p).state = .runnable ∨ (s.procs p).state = .sleeping ∧ (s.procs p).chan = ch

/-- Nobody is queued when the loops over the channels begin, and all but the last of them find
nobody to enqueue. -/
def State.LoopsFresh (s : State κ) (chs : List (Option Chan)) : Prop :=
  (∀ p, s.board.Free p) ∧ ∀ ch ∈ chs.dropLast, ∀ p, ¬ s.Offered ch p

/-- The condition under which a step keeps the queues in step with the table. -/
def State.Tidy (s : State κ) : Label κ → Prop
  | .scan c => ∀ p : Slot, (s.cpus c).pc = .scan p.val → (s.procs p).state = .runnable → s.board.Free p
  | .wakeup n => s.LoopsFresh [some (.other n)]
  | .exitFinish c => ∀ p, (s.cpus c).proc = some p → s.LoopsFresh (s.exitChans p)
  | .kill pid => ∀ p, s.findPid pid = some p → s.board.Free p
  | .cvSignal pid => ∀ p, s.sleeper pid = some p →
      (s.procs p).queueType = 0 ∨ (s.procs p).fpPriority = (s.procs p).hfsPriority
  | .prioSet c pid priority word => priority < prioMax ∧ ∀ p q, (s.cpus c).proc = some p →
      s.prioTarget p pid priority word = some q →
        s.board.Free q ∨ (s.procs q).queueType ≠ 0 ∨ (s.procs q).fpPriority = priority
  | _ => True

instance (s : State κ) (ch : Option Chan) (p : Slot) : Decidable (s.Offered ch p) :=
  inferInstanceAs (Decidable (_ ∨ _))

instance (s : State κ) (chs : List (Option Chan)) : Decidable (s.LoopsFresh chs) :=
  inferInstanceAs (Decidable (_ ∧ _))

instance (s : State κ) : ∀ a, Decidable (s.Tidy a)
  | .scan _ => inferInstanceAs (Decidable (∀ _, _ → _ → Free _ _))
  | .wakeup _ => inferInstanceAs (Decidable (s.LoopsFresh _))
  | .exitFinish _ => inferInstanceAs (Decidable (∀ _, _ → s.LoopsFresh _))
  | .kill _ => inferInstanceAs (Decidable (∀ _, _ → Free _ _))
  | .cvSignal _ => inferInstanceAs (Decidable (∀ _, _ → _ ∨ _))
  | .prioSet _ _ _ _ => inferInstanceAs (Decidable (_ ∧ ∀ _ _, _ → _ → _ ∨ _))
  | .schedule _ | .resume _ | .forkAlloc _ | .forkKstackFail _ | .forkInit _ | .forkInherit _
  | .forkCopyFail _ | .forkCopy _ | .forkFinish _ | .exitPrepare _ | .wait _ | .waitScan _
  | .sleep _ _ | .yield _ | .cvWait _ | .cvWaitFull _ | .createAndEnter _ | .store _ _ => isTrue trivial

theorem State.Tidy.prioBelow {a : Label κ} (h : s.Tidy a) : a.PrioBelow := by
  cases a with
  | prioSet => exact h.1
  | _ => trivial

theorem InStep.loopsFresh {chs : List (Option Chan)} (h : InStep s.board) (hfresh : s.LoopsFresh chs)
    (hloops : Loops (fun p => (s.procs p).chan) chs s.board b) : InStep b :=
  h.loops hfresh.1 (fun ch hch p => not_or.mp (hfresh.2 ch hch p)) hloops

theorem InStep.shift [DecidableEq κ] {a : Label κ} (h : InStep s.board) (ha : s.Tidy a)
    (hshift : Shift s a b) : InStep b := by
  have hfree : ∀ {p st}, (s.procs p).state = st → st ≠ .runnable → s.board.Free p := by
    intro p st hp hst
    exact h.free fun hx => hst (hp.symm.trans hx)
  cases hshift with
  | same => exact h
  | settle p st before after => exact h.set (h.free before) st
  | pass take stale => exact (h.take take).1
  | @take c p b take ready => exact (h.take take).1.set ((h.take take).2 p rfl) _
  | @pick c p at_slot ready => exact h.set (ha p at_slot ready) _
  | @yieldFp c p b on running fp offer =>
    have hp := hfree running (by decide)
    refine (h.set hp _).offer hp ?_ offer
    rw [set_self]
    exact if_pos fp
  | yieldHfs running hfs => exact h.set (hfree running (by decide)) _
  | @finish c p np x b on forking embryo state type target offer =>
    have hnp := hfree embryo (by decide)
    refine (h.put (.inl hnp)).offer hnp ?_ offer
    rw [put_self]
  | wakeup loops => exact h.loopsFresh ha loops
  | @kill pid p b found offer =>
    have hp := ha p found
    exact (h.wake hp _).offer (hp.wake _) (wake_target _) offer
  | @cvSignal pid p b found offer =>
    have hsleeping : (s.procs p).state = .sleeping := by
      have := List.find?_some found
      simp only [Bool.and_eq_true, beq_iff_eq] at this
      exact this.2
    have hp := hfree hsleeping (by decide)
    refine (h.set hp _).offer hp ?_ offer
    rw [set_self]
    rcases ha p found with hfp | hsame
    · exact if_pos hfp
    have htarget : (s.procs p).ready.target = (s.procs p).fpPriority := by
      unfold Ready.target
      split
      · rfl
      · exact hsame.symm
    exact htarget
  | @enterFp c p pid priority word on running _ => exact h.put (.inl (hfree running (by decide)))
  | @prio c p q pid priority word b on running _ target eq =>
    have hp := hfree running (by decide)
    have hb : InStep b := eq ▸ h.put (.inl hp)
    refine hb.put ?_
    subst eq
    by_cases hqp : q = p
    · subst hqp
      exact .inl hp
    rcases ha.2 p q on target with hq | hq
    · exact .inl hq
    rw [put_of_ne hqp]
    right
    refine ⟨rfl, ?_⟩
    unfold Ready.target
    rcases hq with hq | hq
    · exact (if_neg hq).trans (if_neg hq).symm
    · simp [State.board, Proc.ready, hq]
  | @exit c p b on running loops =>
    have hb := h.loopsFresh (ha p on) loops
    have hstate : (b.ready p).state ≠ .runnable := by
      rw [loops.ready_of_awake (fun hx => absurd (running.symm.trans hx) (by decide))]
      exact fun hx => absurd (running.symm.trans hx) (by decide)
    exact hb.set (hb.free hstate) _

/-! ## Runs -/

theorem InStep.listed (h : InStep b) : b.listed.Nodup := by
  have hrange : ∀ k ∈ List.range prioMax, (k : Int) < prioMax := by
    intro k hk
    exact Int.ofNat_lt.mpr (List.mem_range.mp hk)
  refine List.nodup_flatMap.mpr ⟨fun k hk => ?_, List.nodup_range.imp_of_mem ?_⟩
  · exact h.nodup k (by omega) (hrange k hk)
  intro j k hj hk hne p hpj hpk
  have hinj : b.InQueue p j := ⟨by omega, hrange j hj, hpj⟩
  have hink : b.InQueue p k := ⟨by omega, hrange k hk, hpk⟩
  have heq := (h.target p j hinj).symm.trans (h.target p k hink)
  omega

/-- Where every step meets the condition, each process is in the ready queues at most once, and
a process in a queue is `RUNNABLE` and has that priority. -/
theorem queues_in_step [DecidableEq κ] (root : Nat) (slot : Int → Int → Slot) (as : List (Label κ))
    (s : State κ) (hrun : Run (Guarded Step State.Tidy) (booted κ root slot) as s) :
    s.board.listed.Nodup ∧ ∀ p k, s.board.InQueue p k →
      (s.procs p).state = .runnable ∧ (s.procs p).ready.target = k := by
  have hboot : InStep (booted κ root slot).board := by
    refine ⟨fun k _ _ => ?_, fun p k hk => absurd hk (booted_free p k), fun p k hk => absurd hk (booted_free p k)⟩
    rw [booted_queue]
    exact List.nodup_nil
  obtain ⟨-, -, h⟩ := board_of_run (fun s a ha => ha.prioBelow)
    (fun s a b _ hinv ha hshift => hinv.shift ha hshift) hrun hboot
  exact ⟨h.listed, fun p k hk => ⟨h.runnable p k hk, h.target p k hk⟩⟩

/-- `init` runs and has made a child, which is queued. -/
theorem queues_in_step_fork : ∃ s, Run (Guarded Step State.Tidy) (booted (Fin 1) 1 fun _ _ => 0)
      (initRuns 0 ++ forkCall 0) s ∧ s.board.listed = [1] ∧
      (s.procs 1).state = .runnable ∧ (s.procs 1).ready.target = 0 := by
  exact Run.foundOk id (fun s => s.board.listed = [1] ∧ s.board.InQueue 1 0) (by decide +kernel)
    fun s hrun h => ⟨h.1, (queues_in_step 1 (fun _ _ => 0) _ s hrun).2 1 0 h.2⟩

/-- A wake-up with a process in a queue: the process is queued twice. -/
theorem wakeup_queues_twice : ∃ s, Run Step (booted (Fin 1) 1 fun _ _ => 0)
      (initRuns 0 ++ forkCall 0 ++ [.wakeup 0]) s ∧ s.lock = none ∧ s.board.listed = [1, 1] := by
  exact Run.found id _ (by decide +kernel) fun _ _ h => h

end Xv6.Ptable
