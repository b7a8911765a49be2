import Xv6.Lib.WrapRing
import Xv6.Pipes.Model

/-! # A pipe is a byte queue

The run keeps a journal: the calls each process has begun, every byte stored, with the call
that stored it, and every byte delivered. What is delivered is the beginning of what is
stored, the rest is in the ring, and the bytes of one `pipewrite` are stored in their order.
-/

namespace Xv6.Pipes

open Function
open Lib Lib.Spin

variable {ι : Type} [DecidableEq ι]

variable {P : Procs ι} {s t : State ι} {p r q : ι} {c : Pc} {buf : List UInt8} {i : Nat} {a : Label ι}

/-! ## What an instruction does to the pipe -/

theorem pipe_effect (s : Mem ι) :
    ((code P p c).effect s).pipe =
      match c with
      | .writeStore buf i => s.pipe.put (buf.getD i 0)
      | .readCopy _ _ => s.pipe.take
      | .closeFlag writable => s.pipe.close writable
      | _ => s.pipe := by
  cases c with
  | writeLoop buf i | readLoop n i =>
    simp only [code]
    split <;> rfl
  | killFind pid =>
    simp only [code, Instr.effect, Mem.kill]
    split <;> rfl
  | _ => rfl

theorem pipe_frame {k : Pc} (howned : Owned locksAt s) (hc : s.pc r = some c)
    (hx : Executed s r (code P r c) t) (hk : s.pc p = some k) (hpipe : .pipe ∈ locksAt k) (hne : p ≠ r) :
    t.mem.pipe = s.mem.pipe := by
  have hnot : .pipe ∉ locksAt c := fun hl => hne (howned.unique hk hc hpipe hl)
  rw [hx.mem_eq, pipe_effect]
  cases c with
  | writeStore buf i | readCopy n i | closeFlag w => exact absurd (by simp [locksAt]) hnot
  | _ => rfl

/-- The points at which a call begins or returns. -/
def idle : Pc → Bool
  | .writeAcquire _ | .readAcquire _ | .closeAcquire _ | .killAcquire _ | .done _ => true
  | _ => false

theorem idle_ret {v : Int} (h : code P p c = .ret v) : idle c = true := by
  cases c with
  | writeLoop buf i | readLoop n i =>
    simp only [code] at h
    split at h <;> cases h
  | _ => first | rfl | cases h

theorem idle_entry (k : Call) : idle (entry k) = true := by
  cases k <;> rfl

/-- What a test under `p->lock` has found stays so until the process acts on it. -/
structure Tested (s : State ι) : Prop where
  owned : Owned locksAt s
  room : ∀ p buf i, s.pc p = some (.writeStore buf i) → s.mem.pipe.isFull = false ∧ i < buf.length
  there : ∀ p n i, s.pc p = some (.readCopy n i) → s.mem.pipe.isEmpty = false

theorem Tested.step (h : Tested s) (hstep : Step (program P) s a t) : Tested t := by
  have howned := h.owned.step (program_annotated P) hstep
  rcases executed_or_unmoved idle_entry (fun _ _ _ => idle_ret) hstep with ⟨q, k, -, hq, hx⟩ | hu
  · have hpipe : t.mem.pipe = ((code P q k).effect s.mem).pipe := by rw [hx.mem_eq]; rfl
    refine ⟨howned, fun p buf i hp => ?_, fun p n i hp => ?_⟩
    · by_cases hpq : p = q
      · subst hpq
        obtain ⟨rfl, hlt, hroom⟩ : k = .writeLoop buf i ∧ _ := comesFrom hx hp
        rw [hpipe, pipe_effect]
        exact ⟨hroom, hlt⟩
      · rw [(owner_frame hx hpq).2] at hp
        rw [pipe_frame h.owned hq hx hp (by simp [locksAt]) hpq]
        exact h.room p buf i hp
    · by_cases hpq : p = q
      · subst hpq
        obtain ⟨rfl, hthere⟩ : k = .readLoop n i ∧ _ := comesFrom hx hp
        rw [hpipe, pipe_effect]
        exact hthere
      · rw [(owner_frame hx hpq).2] at hp
        rw [pipe_frame h.owned hq hx hp (by simp [locksAt]) hpq]
        exact h.there p n i hp
  · exact ⟨howned, fun p buf i hp => hu.mem ▸ h.room p buf i ((hu.pc p _ rfl).mp hp),
      fun p n i hp => hu.mem ▸ h.there p n i ((hu.pc p _ rfl).mp hp)⟩

/-! ## The journal -/

/-- A stored byte, with the process that stored it and the number of its call. -/
structure Stored (ι : Type) where
  writer : ι
  call : Nat
  byte : UInt8

/-- The state with the calls each process has begun, the bytes stored and those delivered. -/
structure Journal (ι : Type) where
  state : State ι
  calls : ι → List Call
  stored : List (Stored ι)
  delivered : List UInt8

def Journal.enter (x : Journal ι) : Label ι → ι → List Call
  | .call p c => update x.calls p (x.calls p ++ [c])
  | _ => x.calls

def Journal.store (x : Journal ι) : Label ι → List (Stored ι)
  | .step p =>
    match x.state.pc p with
    | some (.writeStore buf i) => x.stored ++ [⟨p, (x.calls p).length - 1, buf.getD i 0⟩]
    | _ => x.stored
  | _ => x.stored

def Journal.deliver (x : Journal ι) : Label ι → List UInt8
  | .step p =>
    match x.state.pc p with
    | some (.readCopy _ _) => x.delivered ++ [x.state.mem.pipe.front]
    | _ => x.delivered
  | _ => x.delivered

def Journal.step (P : Procs ι) (x : Journal ι) (a : Label ι) : Option (Journal ι) :=
  (Spin.step (program P) x.state a).map fun t => ⟨t, x.enter a, x.store a, x.deliver a⟩

abbrev Journal.Step (P : Procs ι) (x : Journal ι) (a : Label ι) (y : Journal ι) : Prop :=
  x.step P a = some y

variable {x y : Journal ι}

theorem Journal.step_inv (h : Journal.Step P x a y) :
    Spin.Step (program P) x.state a y.state ∧
      y = ⟨y.state, x.enter a, x.store a, x.deliver a⟩ := by
  obtain ⟨t, ht, rfl⟩ := Option.map_eq_some_iff.mp h
  exact ⟨ht, rfl⟩

def Journal.bytes (x : Journal ι) : List UInt8 :=
  x.stored.map Stored.byte

/-- The bytes stored by call number `k` of `p`. -/
def Journal.written (x : Journal ι) (p : ι) (k : Nat) : List UInt8 :=
  (x.stored.filter fun e => e.writer = p ∧ e.call = k).map Stored.byte

/-! ## The queue -/

/-- The ring holds the stored bytes that are not yet delivered. -/
structure Queued (x : Journal ι) : Prop where
  holds : WrapRing.Holds pipeSize uintMod x.state.mem.pipe.data x.state.mem.pipe.nread
    x.state.mem.pipe.nwrite x.bytes x.delivered.length
  delivered : x.delivered <+: x.bytes

theorem pipeSize_dvd : pipeSize ∣ uintMod := by decide

theorem pipeSize_lt : pipeSize < uintMod := by decide

omit [DecidableEq ι] in
theorem Queued.room (h : Queued x) (hfull : x.state.mem.pipe.isFull = false) :
    x.bytes.length - x.delivered.length < pipeSize := by
  have hne : ¬ x.bytes.length - x.delivered.length = pipeSize := by
    rw [← h.holds.full_iff pipeSize_lt]
    simpa [Pipe.isFull] using hfull
  have := h.holds.fits
  omega

omit [DecidableEq ι] in
theorem Queued.there (h : Queued x) (hempty : x.state.mem.pipe.isEmpty = false) :
    x.delivered.length < x.bytes.length := by
  have hne : ¬ x.delivered.length = x.bytes.length := by
    rw [← h.holds.empty_iff pipeSize_lt]
    simpa [Pipe.isEmpty] using hempty
  have := h.holds.taken_le
  omega

theorem Queued.step (h : Queued x) (htested : Tested x.state) (hstep : Journal.Step P x a y) :
    Queued y := by
  obtain ⟨hstate, hy⟩ := Journal.step_inv hstep
  -- nothing is stored or delivered and the ring stays as it is
  have hquiet : y.state.mem.pipe.data = x.state.mem.pipe.data →
      y.state.mem.pipe.nread = x.state.mem.pipe.nread →
      y.state.mem.pipe.nwrite = x.state.mem.pipe.nwrite → x.store a = x.stored →
      x.deliver a = x.delivered → Queued y := by
    intro hdata hread hwrite hstored hdelivered
    have hbytes : y.bytes = x.bytes := by rw [hy]; exact congrArg (List.map _) hstored
    have hdel : y.delivered = x.delivered := by rw [hy]; exact hdelivered
    exact ⟨by rw [hdata, hread, hwrite, hbytes, hdel]; exact h.holds,
      by rw [hbytes, hdel]; exact h.delivered⟩
  obtain ⟨q, k, rfl, hq, ht⟩ | ⟨q, c, rfl, hq, hx⟩ | ⟨q, k, v, rfl, hq, hcode, ht⟩ :=
    step_cases hstate
  · exact hquiet (by rw [ht]; rfl) (by rw [ht]; rfl) (by rw [ht]; rfl) rfl rfl
  · have hpipe : y.state.mem.pipe = ((code P q c).effect x.state.mem).pipe := by
      rw [hx.mem_eq]
      rfl
    rw [pipe_effect] at hpipe
    cases c with
    | writeStore buf i =>
      have hroom := h.room (htested.room q buf i hq).1
      have hbytes : y.bytes = x.bytes ++ [buf.getD i 0] := by
        rw [hy]
        simp [Journal.bytes, Journal.store, hq]
      have hdel : y.delivered = x.delivered := by
        rw [hy]
        simp [Journal.deliver, hq]
      refine ⟨?_, ?_⟩
      · rw [hpipe, hbytes, hdel]
        exact h.holds.put pipeSize_dvd hroom _
      · rw [hbytes, hdel]
        exact h.delivered.trans (List.prefix_append _ _)
    | readCopy n i =>
      have hthere := h.there (htested.there q n i hq)
      obtain ⟨hget, hholds⟩ := h.holds.take pipeSize_dvd hthere
      have hbytes : y.bytes = x.bytes := by
        rw [hy]
        simp [Journal.bytes, Journal.store, hq]
      have hdel : y.delivered = x.delivered ++ [x.state.mem.pipe.front] := by
        rw [hy]
        simp [Journal.deliver, hq]
      refine ⟨?_, ?_⟩
      · rw [hpipe, hbytes, hdel, List.length_append]
        exact hholds
      rw [hbytes, hdel]
      obtain ⟨rest, hrest⟩ := h.delivered
      rw [← hrest, List.getElem?_append_right (Nat.le_refl _), Nat.sub_self] at hget
      cases rest with
      | nil => cases hget
      | cons b rest =>
        rw [List.getElem?_cons_zero, Option.some.injEq] at hget
        refine ⟨rest, ?_⟩
        rw [← hrest, hget, List.append_assoc]
        rfl
    | closeFlag w =>
      refine hquiet ?_ ?_ ?_ (by simp [Journal.store, hq]) (by simp [Journal.deliver, hq])
      all_goals
        rw [hpipe]
        cases w <;> rfl
    | _ =>
      exact hquiet (by rw [hpipe]) (by rw [hpipe]) (by rw [hpipe]) (by simp [Journal.store, hq])
        (by simp [Journal.deliver, hq])
  · exact hquiet (by rw [ht]) (by rw [ht]) (by rw [ht]) rfl rfl

/-! ## The bytes of one call -/

def Loop.position : Loop → Option (List UInt8 × Nat)
  | .write buf i => some (buf, i)
  | .read _ => none

/-- How far a `pipewrite` at this point has got. -/
def position : Pc → Option (List UInt8 × Nat)
  | .writeAcquire buf => some (buf, 0)
  | .writeLoop buf i | .writeFull buf i | .writeStore buf i | .fullWakeAcquire buf i
  | .fullWake buf i | .fullWakeRelease buf i => some (buf, i)
  | .sleepAcquire k | .sleepRelease k | .sleepMark k | .sleepSched k | .sleepWait k
  | .sleepWake k | .sleepDone k | .sleepReacquire k => k.position
  | .writeWake buf | .writeWakeRelease buf | .writeRelease buf => some (buf, buf.length)
  | _ => none

theorem position_target {c' : Pc} {s : Mem ι} (h : (code P p c).target s = some c')
    (hpos : position c' = some (buf, i)) : (∃ j, c = .writeStore buf j ∧ i = j + 1) ∨
      (position c = some (buf, i) ∧ ∀ b j, c ≠ .writeStore b j) ∨
      (∃ j, c = .writeLoop buf j ∧ buf.length ≤ j ∧ i = buf.length) := by
  cases c with
  | writeLoop b j =>
    rcases target_writeLoop h with ⟨-, -, rfl⟩ | ⟨-, -, rfl⟩ | ⟨hlt, rfl⟩
    · exact .inr (.inl ⟨hpos, fun b j => by simp⟩)
    · exact .inr (.inl ⟨hpos, fun b j => by simp⟩)
    · cases hpos
      exact .inr (.inr ⟨j, rfl, Nat.le_of_not_lt hlt, rfl⟩)
  | writeStore b j =>
    cases h
    cases hpos
    exact .inl ⟨j, rfl, rfl⟩
  | readLoop n j => rcases target_readLoop h with ⟨-, rfl⟩ | ⟨-, rfl⟩ | rfl <;> cases hpos
  | sleepReacquire k =>
    cases k with
    | write b j =>
      cases h
      exact .inr (.inl ⟨hpos, fun b j => by simp⟩)
    | read n =>
      cases h
      cases hpos
  | _ =>
    simp only [code, Instr.target, Option.some.injEq, reduceCtorEq] at h
    try subst h
    try split at hpos
    all_goals first | exact .inr (.inl ⟨hpos, fun b j => by simp⟩) | cases hpos

theorem position_entry {k : Call} (h : position (entry k) = some (buf, i)) : k = .write buf ∧ i = 0 := by
  cases k <;> cases h
  exact ⟨rfl, rfl⟩

/-- Each call has stored a beginning of its buffer, the current ones as far as they have got. -/
structure Ordered (x : Journal ι) : Prop where
  tagged : ∀ e ∈ x.stored, ∃ buf, (x.calls e.writer)[e.call]? = some (.write buf)
  current : ∀ p c buf i, x.state.pc p = some c → position c = some (buf, i) →
    i ≤ buf.length ∧ ∃ before, x.calls p = before ++ [.write buf] ∧
      x.written p before.length = buf.take i
  begun : ∀ p k buf, (x.calls p)[k]? = some (.write buf) → x.written p k <+: buf

theorem written_call (h : Ordered x) {k : Nat} (hk : (x.calls p).length ≤ k) :
    x.written p k = [] := by
  have hnone : x.stored.filter (fun e => e.writer = p ∧ e.call = k) = [] := by
    rw [List.filter_eq_nil_iff]
    intro e he heq
    obtain ⟨rfl, rfl⟩ := of_decide_eq_true heq
    obtain ⟨buf, hbuf⟩ := h.tagged e he
    have := (List.getElem?_eq_some_iff.mp hbuf).1
    omega
  rw [Journal.written, hnone]
  rfl

theorem Ordered.call {k : Call} (h : Ordered x) (hstored : y.stored = x.stored)
    (hcalls : y.calls = update x.calls q (x.calls q ++ [k]))
    (hstate : y.state = x.state.goto q (entry k)) : Ordered y := by
  have hwritten : ∀ p j, y.written p j = x.written p j := by
    intro p j
    rw [Journal.written, hstored]
    rfl
  have hkept : ∀ (p : ι) (j : Nat) c, (x.calls p)[j]? = some c → (y.calls p)[j]? = some c := by
    intro p j c hc
    rw [hcalls]
    by_cases hpq : p = q
    · subst hpq
      rw [update_self, List.getElem?_append_left (List.getElem?_eq_some_iff.mp hc).1, hc]
    · rw [update_of_ne hpq, hc]
  refine ⟨fun e he => ?_, fun p c buf i hc hpos => ?_, fun p j buf hj => ?_⟩
  · rw [hstored] at he
    obtain ⟨buf, hbuf⟩ := h.tagged e he
    exact ⟨buf, hkept _ _ _ hbuf⟩
  · rw [hstate] at hc
    by_cases hpq : p = q
    · subst hpq
      rw [goto_pc_self, Option.some.injEq] at hc
      subst hc
      obtain ⟨rfl, rfl⟩ := position_entry hpos
      refine ⟨Nat.zero_le _, x.calls p, by rw [hcalls, update_self], ?_⟩
      rw [hwritten, written_call h (Nat.le_refl _)]
      rfl
    · rw [goto_pc_of_ne hpq] at hc
      obtain ⟨hle, before, hbefore, hw⟩ := h.current p c buf i hc hpos
      exact ⟨hle, before, by rw [hcalls, update_of_ne hpq, hbefore], by rw [hwritten, hw]⟩
  · rw [hwritten]
    rw [hcalls] at hj
    by_cases hpq : p = q
    · subst hpq
      rw [update_self] at hj
      rcases Nat.lt_or_ge j (x.calls p).length with hlt | hge
      · rw [List.getElem?_append_left hlt] at hj
        exact h.begun p j buf hj
      · rw [written_call h hge]
        exact List.nil_prefix
    · rw [update_of_ne hpq] at hj
      exact h.begun p j buf hj

theorem written_store {k : Nat} {b : UInt8} (p : ι) (j : Nat)
    (hstored : y.stored = x.stored ++ [⟨q, k, b⟩]) :
    y.written p j = if q = p ∧ k = j then x.written p j ++ [b] else x.written p j := by
  rw [Journal.written, hstored, List.filter_append, List.map_append]
  by_cases hsame : q = p ∧ k = j
  · rw [if_pos hsame, List.filter_cons_of_pos (by simpa using hsame)]
    rfl
  · rw [if_neg hsame, List.filter_cons_of_neg (by simpa using hsame)]
    exact List.append_nil _

theorem Ordered.store (h : Ordered x) (hq : x.state.pc q = some (.writeStore buf i))
    (hlt : i < buf.length) (hx : Executed x.state q (code P q (.writeStore buf i)) y.state)
    (hstored : y.stored = x.store (.step q)) (hcalls : y.calls = x.calls) : Ordered y := by
  obtain ⟨-, before, hbefore, hw⟩ := h.current q _ buf i hq rfl
  have hnew : y.stored = x.stored ++ [⟨q, before.length, buf[i]⟩] := by
    rw [hstored]
    simp [Journal.store, hq, hbefore, hlt]
  have hgot : (x.calls q)[before.length]? = some (.write buf) := by simp [hbefore]
  have htake : x.written q before.length ++ [buf[i]] = buf.take (i + 1) := by
    rw [hw, List.take_add_one, List.getElem?_eq_getElem hlt]
    rfl
  have hothers : ∀ p j, ¬ (q = p ∧ before.length = j) → y.written p j = x.written p j := by
    intro p j hne
    rw [written_store p j hnew, if_neg hne]
  refine ⟨fun e he => ?_, fun p c b j hc hpos => ?_, fun p j b hj => ?_⟩
  · rw [hcalls]
    rw [hnew, List.mem_append, List.mem_singleton] at he
    rcases he with he | rfl
    · exact h.tagged e he
    · exact ⟨buf, hgot⟩
  · by_cases hpq : p = q
    · subst hpq
      obtain ⟨c', htarget, hpc⟩ := hx.target_isSome
      cases htarget
      rw [hpc, update_self, Option.some.injEq] at hc
      subst hc
      cases hpos
      refine ⟨hlt, before, hcalls ▸ hbefore, ?_⟩
      rw [written_store p _ hnew, if_pos ⟨rfl, rfl⟩, htake]
    · rw [(owner_frame hx hpq).2] at hc
      obtain ⟨hle, before', hbefore', hw'⟩ := h.current p c b j hc hpos
      refine ⟨hle, before', hcalls ▸ hbefore', ?_⟩
      rw [hothers p _ fun hsame => hpq hsame.1.symm, hw']
  · rw [hcalls] at hj
    by_cases hsame : q = p ∧ before.length = j
    · obtain ⟨rfl, rfl⟩ := hsame
      rw [hgot, Option.some.injEq, Call.write.injEq] at hj
      subst hj
      rw [written_store q _ hnew, if_pos ⟨rfl, rfl⟩, htake]
      exact List.take_prefix _ _
    · rw [hothers p j hsame]
      exact h.begun p j b hj

theorem Ordered.quiet (h : Ordered x) (hcalls : y.calls = x.calls) (hstored : y.stored = x.stored)
    (hback : ∀ p c buf i, y.state.pc p = some c → position c = some (buf, i) →
      ∃ c', x.state.pc p = some c' ∧ (position c' = some (buf, i) ∨
        ∃ j, c' = .writeLoop buf j ∧ buf.length ≤ j ∧ i = buf.length)) : Ordered y := by
  have hwritten : ∀ p k, y.written p k = x.written p k := by
    intro p k
    rw [Journal.written, hstored]
    rfl
  refine ⟨fun e he => ?_, fun p c buf i hc hpos => ?_, fun p k buf hk => ?_⟩
  · rw [hcalls]
    exact h.tagged e (hstored ▸ he)
  · obtain ⟨c', hc', hpos' | ⟨j, rfl, hge, rfl⟩⟩ := hback p c buf i hc hpos
    · rw [hcalls]
      simp only [hwritten]
      exact h.current p c' buf i hc' hpos'
    · obtain ⟨hle, before, hbefore, hw⟩ := h.current p _ buf j hc' rfl
      obtain rfl : j = buf.length := Nat.le_antisymm hle hge
      exact ⟨Nat.le_refl _, before, hcalls ▸ hbefore, by rw [hwritten, hw]⟩
  · rw [hwritten]
    exact h.begun p k buf (hcalls ▸ hk)

theorem Ordered.step (h : Ordered x) (htested : Tested x.state) (hstep : Journal.Step P x a y) :
    Ordered y := by
  obtain ⟨hstate, hy⟩ := Journal.step_inv hstep
  have hcalls : y.calls = x.enter a := by rw [hy]
  have hstored : y.stored = x.store a := by rw [hy]
  obtain ⟨q, k, rfl, hq, ht⟩ | ⟨q, c, rfl, hq, hx⟩ | ⟨q, k, v, rfl, hq, hcode, ht⟩ :=
    step_cases hstate
  · exact h.call hstored hcalls ht
  · by_cases hstore : ∃ buf i, c = .writeStore buf i
    · obtain ⟨buf, i, rfl⟩ := hstore
      exact h.store (P := P) hq (htested.room q buf i hq).2 hx hstored hcalls
    refine h.quiet hcalls ?_ fun p c' buf i hc' hpos => ?_
    · rw [hstored]
      simp only [Journal.store, hq]
      split
      · rename_i b j heq
        exact absurd ⟨b, j, Option.some.inj heq⟩ hstore
      · rfl
    · by_cases hpq : p = q
      · subst hpq
        obtain ⟨k, htarget, hpc⟩ := hx.target_isSome
        rw [hpc, update_self, Option.some.injEq] at hc'
        subst hc'
        refine ⟨c, hq, ?_⟩
        rcases position_target htarget hpos with ⟨j, rfl, -⟩ | ⟨hpos', -⟩ | hdone
        · exact absurd ⟨buf, j, rfl⟩ hstore
        · exact .inl hpos'
        · exact .inr hdone
      · exact ⟨c', (owner_frame hx hpq).2.symm.trans hc', .inl hpos⟩
  · refine h.quiet hcalls hstored fun p c buf i hc hpos => ⟨c, ?_, .inl hpos⟩
    rw [ht] at hc
    exact pc_of_leave hc

/-! ## Runs -/

/-- A new pipe that nobody uses yet, with an empty journal. -/
structure Fresh (x : Journal ι) : Prop where
  allocated : Allocated x.state
  calls : ∀ p, x.calls p = []
  stored : x.stored = []
  delivered : x.delivered = []

structure Kept (x : Journal ι) : Prop where
  tested : Tested x.state
  queued : Queued x
  ordered : Ordered x

theorem Fresh.kept (h : Fresh x) : Kept x := by
  have hnone := h.allocated.pc
  refine ⟨⟨h.allocated.owned, fun p buf i hp => ?_, fun p n i hp => ?_⟩, ⟨?_, ?_⟩,
    ⟨fun e he => ?_, fun p c buf i hc => ?_, fun p k buf hk => ?_⟩⟩
  · simp [hnone p] at hp
  · simp [hnone p] at hp
  · rw [Journal.bytes, h.stored, h.delivered, h.allocated.nread, h.allocated.nwrite]
    exact .start _ _
  · rw [h.delivered]
    exact List.nil_prefix
  · simp [h.stored] at he
  · simp [hnone p] at hc
  · simp [h.calls p] at hk

theorem Kept.step (h : Kept x) (hstep : Journal.Step P x a y) : Kept y :=
  ⟨h.tested.step (Journal.step_inv hstep).1, h.queued.step h.tested hstep,
    h.ordered.step h.tested hstep⟩

/-- Any processes, any interleaving of calls of any sizes, any number of wraps of the
counters: the bytes delivered are the first of the bytes stored and the others are in the
ring in order; each byte was stored by a `pipewrite`, and what one of them stored is a
beginning of its buffer, all of it when it is about to return; the difference of the
counters is the number of bytes stored and not delivered, at most `PIPESIZE`. -/
theorem pipe_fifo {P : Procs ι} {x y : Journal ι} {as : List (Label ι)} (hfresh : Fresh x)
    (hrun : Run (Journal.Step P) x as y) :
    y.delivered <+: y.bytes ∧
      (∀ k b, y.bytes[y.delivered.length + k]? = some b →
        y.state.mem.pipe.data ((y.state.mem.pipe.nread + k) % pipeSize) = b) ∧
      (∀ e ∈ y.stored, ∃ buf, (y.calls e.writer)[e.call]? = some (.write buf)) ∧
      (∀ p k buf, (y.calls p)[k]? = some (.write buf) → y.written p k <+: buf) ∧
      (∀ p buf, y.state.pc p = some (.writeRelease buf) →
        ∃ before, y.calls p = before ++ [.write buf] ∧ y.written p before.length = buf) ∧
      (y.state.mem.pipe.nwrite + uintMod - y.state.mem.pipe.nread) % uintMod =
        y.stored.length - y.delivered.length ∧
      y.stored.length - y.delivered.length ≤ pipeSize := by
  have hkept : Kept y := hrun.invariant (fun x a y h hs => h.step hs) hfresh.kept
  have hlength : y.bytes.length = y.stored.length := List.length_map _
  refine ⟨hkept.queued.delivered, fun k b hb => hkept.queued.holds.cell pipeSize_dvd hb,
    hkept.ordered.tagged, hkept.ordered.begun, fun p buf hp => ?_, ?_, ?_⟩
  · obtain ⟨-, before, hbefore, hw⟩ := hkept.ordered.current p _ buf buf.length hp rfl
    exact ⟨before, hbefore, hw.trans (List.take_length ..)⟩
  · rw [hkept.queued.holds.used pipeSize_lt, hlength]
  · rw [← hlength]
    exact hkept.queued.holds.fits

/-- Two bytes written, one read. -/
theorem pipe_fifo_two :
    ∃ y, Run (Journal.Step threeProcs) ⟨allocated, fun _ => [], [], []⟩
        (.call 0 (.write [7, 8]) :: steps 0 9 ++ .ret 0 2 :: .call 1 (.read 1) :: steps 1 8 ++
          [.ret 1 1]) y ∧
      y.delivered = [7] ∧ y.bytes = [7, 8] ∧ y.delivered <+: y.bytes := by
  exact Run.found id (fun y => y.delivered = [7] ∧ y.bytes = [7, 8]) (by decide +kernel) fun y hrun h =>
    ⟨h.1, h.2, (pipe_fifo ⟨allocated_ok, fun _ => rfl, rfl, rfl⟩ hrun).1⟩

end Xv6.Pipes
