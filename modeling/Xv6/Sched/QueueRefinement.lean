import Mathlib.Logic.Function.Basic
import Xv6.Lib.Ring
import Xv6.Sched.ReadyQueue

/-! # The ready queues against one FIFO list per priority

The reference keeps one list per priority with room for `QUEUESIZE - 1` entries.
The code agrees with it call by call as long as no `fp_enqueue` meets a queue whose
head index is `0` and whose tail index is `QUEUESIZE - 1`: there the full test
compares the tail with `-1 % QUEUESIZE`, which C evaluates to `-1`, the entry is
accepted, the tail wraps onto the head and the queue reads as empty.
-/

namespace Xv6.Sched

open Function Lib

variable {P : Type}

variable {pr : Int} {q : ReadyQueues P} {xs : List P} {op : QueueOp P}

/-! ## The reference -/

abbrev FifoQueues (P : Type) := Int → List P

def fifoEmpty : FifoQueues P := fun _ => []

/-- Append unless the list already has `QUEUESIZE - 1` entries. -/
def fifoEnqueue (r : FifoQueues P) (p : P) (pr : Int) : Int × FifoQueues P :=
  if queueSize - 1 ≤ (r pr).length then (-1, r)
  else (1, fun k => if k = pr then r pr ++ [p] else r k)

variable {r : FifoQueues P}

theorem fifoEnqueue_full (p : P) (h : queueSize - 1 ≤ (r pr).length) : fifoEnqueue r p pr = (-1, r) :=
  if_pos h

theorem fifoEnqueue_free (p : P) (h : ¬ queueSize - 1 ≤ (r pr).length) :
    fifoEnqueue r p pr = (1, fun k => if k = pr then r pr ++ [p] else r k) :=
  if_neg h

/-- The lowest-numbered priority with a non-empty list. -/
def lowest (r : FifoQueues P) : Option Nat :=
  (List.range prioMax).find? fun k => !(r k).isEmpty

/-- Take the oldest entry of the lowest-numbered non-empty list. -/
def fifoDequeue (r : FifoQueues P) : Option P × FifoQueues P :=
  match lowest r with
  | none => (none, r)
  | some k => ((r k).head?, fun j => if j = k then (r k).tail else r j)

def fifoStep (r : FifoQueues P) : QueueOp P → QueueResult P × FifoQueues P
  | .enqueue p pr => let (c, r') := fifoEnqueue r p pr; (.code c, r')
  | .dequeue => let (p, r') := fifoDequeue r; (.proc p, r')

def fifoResults (r : FifoQueues P) : List (QueueOp P) → List (QueueResult P)
  | [] => []
  | op :: ops => (fifoStep r op).1 :: fifoResults (fifoStep r op).2 ops

/-! ## When the code leaves the reference -/

/-- The call is an enqueue on a queue whose head index is `0` and whose tail index is
the last one. -/
def LapsesAt (q : ReadyQueues P) : QueueOp P → Prop
  | .enqueue _ pr => q.head pr = 0 ∧ q.tail pr = queueSize - 1
  | .dequeue => False

/-- No call of the sequence finds the queues in that position. -/
def NeverLapses (q : ReadyQueues P) : List (QueueOp P) → Prop
  | [] => True
  | op :: ops => ¬ LapsesAt q op ∧ NeverLapses (fpStep q op).2 ops

/-! ## The representation relation -/

/-- Queue `pr` has its indices in range and holds the list `xs`, oldest first. -/
def Holds (q : ReadyQueues P) (pr : Int) (xs : List P) : Prop :=
  ∃ h t : Nat, h < queueSize ∧ t < queueSize ∧ q.head pr = h ∧ q.tail pr = t ∧
    xs = Ring.contents queueSize h t fun i => q.slot pr i

def Represents (q : ReadyQueues P) (r : FifoQueues P) : Prop :=
  ∀ pr : Int, 0 ≤ pr → pr < prioMax → Holds q pr (r pr)

theorem represents_empty (slot : Int → Int → P) :
    Represents (ReadyQueues.empty slot) fifoEmpty := by
  intro pr _ _
  exact ⟨0, 0, by decide, by decide, rfl, rfl, rfl⟩

theorem Holds.eq_nil_iff (h : Holds q pr xs) : xs = [] ↔ q.head pr = q.tail pr := by
  obtain ⟨h, t, hh, ht, eh, et, rfl⟩ := h
  rw [Ring.contents_eq_nil_iff hh ht, eh, et]
  exact Int.ofNat_inj.symm

/-- The full test of the code, at indices in range: it misses the full queue whose
head index is `0`. -/
theorem full_test_iff {h t : Nat} (hh : h < queueSize) (ht : t < queueSize) :
    (t : Int) = ((h : Int) - 1).tmod queueSize ↔
      h ≠ 0 ∧ Ring.used queueSize h t = queueSize - 1 := by
  rw [Ring.used_eq hh ht]
  cases h with
  | zero =>
    have : (((0 : Nat) : Int) - 1).tmod queueSize = -1 := by decide
    rw [this]
    constructor
    · intro e; omega
    · intro e; exact absurd rfl e.1
  | succ h =>
    have : (((h + 1 : Nat) : Int) - 1).tmod queueSize = h := by
      rw [Int.natCast_add, Int.natCast_one, Int.add_sub_cancel,
        Int.tmod_eq_emod_of_nonneg (by omega), Int.emod_eq_of_lt (by omega) (by omega)]
    rw [this]
    constructor
    · intro e
      refine ⟨by omega, ?_⟩
      rw [if_neg (by omega)]
      omega
    · intro ⟨_, e⟩
      split at e <;> omega

theorem next_tmod {t : Nat} : ((t : Int) + 1).tmod queueSize = ((t + 1) % queueSize : Nat) := by
  rw [Int.tmod_eq_emod_of_nonneg (by omega), Int.natCast_emod, Int.natCast_add, Int.natCast_one]

/-! ## One call -/

/-- What the shared enqueue body does to a queue that holds `xs`. -/
theorem enqueueAt_spec (hq : Holds q pr xs) (p : P) (hlapse : ¬ (q.head pr = 0 ∧ q.tail pr = queueSize - 1)) :
    (queueSize - 1 ≤ xs.length ∧ enqueueAt q p pr = (-1, q)) ∨
      (xs.length < queueSize - 1 ∧ (enqueueAt q p pr).1 = 1 ∧
        Holds (enqueueAt q p pr).2 pr (xs ++ [p])) := by
  obtain ⟨h, t, hh, ht, eh, et, rfl⟩ := hq
  rw [Ring.length_contents]
  have hlt : Ring.used queueSize h t < queueSize := Ring.used_lt (by decide)
  have htest := full_test_iff hh ht
  by_cases hfull : (t : Int) = ((h : Int) - 1).tmod queueSize
  · left
    refine ⟨by omega, ?_⟩
    simp only [enqueueAt, eh, et, if_pos hfull]
  right
  -- The only full queue the test misses is the one the hypothesis excludes.
  have hfree : Ring.used queueSize h t < queueSize - 1 := by
    by_cases h0 : h = 0
    · subst h0
      have hu := Ring.used_eq hh ht
      rw [if_pos (Nat.zero_le t)] at hu
      have : t ≠ queueSize - 1 := fun e => hlapse ⟨by simpa using eh, by rw [et, e]; rfl⟩
      omega
    · omega
  refine ⟨hfree, ?_, h, (t + 1) % queueSize, hh, Nat.mod_lt _ (by decide), ?_, ?_, ?_⟩
  · simp only [enqueueAt, eh, et, if_neg hfull]
  · simp only [enqueueAt, eh, et, if_neg hfull]
  · simp only [enqueueAt, eh, et, if_neg hfull, if_pos, next_tmod]
  · rw [← Ring.contents_push hh ht (by omega)]
    simp only [enqueueAt, eh, et, if_neg hfull, true_and, Int.ofNat_inj]

theorem enqueueAt_other {k : Int} (hk : k ≠ pr) (p : P) (hq : Holds q k xs) :
    Holds (enqueueAt q p pr).2 k xs := by
  unfold enqueueAt
  dsimp only
  split
  · exact hq
  · simpa only [Holds, if_neg hk, hk, false_and, if_false] using hq

theorem enqueueAt_lapse (p : P) (hlapse : q.head pr = 0 ∧ q.tail pr = queueSize - 1) :
    (enqueueAt q p pr).1 = 1 := by
  simp only [enqueueAt, hlapse.1, hlapse.2]
  rfl

theorem Holds.length_of_lapse (hq : Holds q pr xs) (hlapse : q.head pr = 0 ∧ q.tail pr = queueSize - 1) :
    xs.length = queueSize - 1 := by
  obtain ⟨h, t, hh, ht, eh, et, rfl⟩ := hq
  rw [Ring.length_contents, Ring.used_eq hh ht]
  have h0 : h = 0 := by have := hlapse.1; omega
  have ht : t = queueSize - 1 := by have := hlapse.2; omega
  subst h0 ht
  rfl

/-- Where the `while` loop of the dequeue functions stops. -/
theorem firstNonEmpty_spec (q : ReadyQueues P) (fuel : Nat) (pr : Int) :
    pr ≤ firstNonEmpty q fuel pr ∧ firstNonEmpty q fuel pr ≤ pr + fuel ∧
      (∀ k, pr ≤ k → k < firstNonEmpty q fuel pr → k < prioMax ∧ q.head k = q.tail k) ∧
      (firstNonEmpty q fuel pr = pr + fuel ∨ ¬ (firstNonEmpty q fuel pr < prioMax ∧
        q.head (firstNonEmpty q fuel pr) = q.tail (firstNonEmpty q fuel pr))) := by
  induction fuel generalizing pr with
  | zero =>
    simp only [firstNonEmpty]
    exact ⟨by omega, by omega, fun k _ _ => by omega, Or.inl (by omega)⟩
  | succ fuel ih =>
    by_cases hc : pr < prioMax ∧ q.head pr = q.tail pr
    · simp only [firstNonEmpty, if_pos hc]
      obtain ⟨hlo, hhi, hbelow, hstop⟩ := ih (pr + 1)
      refine ⟨by omega, by omega, ?_, hstop.imp (by omega) id⟩
      intro k hk hlt
      by_cases hkp : k = pr
      · exact hkp ▸ hc
      · exact hbelow k (by omega) hlt
    · simp only [firstNonEmpty, if_neg hc]
      exact ⟨by omega, by omega, fun k _ _ => by omega, Or.inr hc⟩

theorem firstNonEmpty_eq (h : Represents q r) :
    (∃ k : Nat, lowest r = some k ∧ k < prioMax ∧ r k ≠ [] ∧ firstNonEmpty q prioMax 0 = k) ∨
      (lowest r = none ∧ firstNonEmpty q prioMax 0 = prioMax) := by
  obtain ⟨hlo, hhi, hbelow, hstop⟩ := firstNonEmpty_spec q prioMax 0
  obtain ⟨k, hk⟩ := Int.eq_ofNat_of_zero_le hlo
  rw [hk] at hhi hbelow hstop ⊢
  have empty_below : ∀ j : Nat, j < k → r j = [] := by
    intro j hj
    have hj' := hbelow j (by omega) (by omega)
    exact (h j (by omega) hj'.1).eq_nil_iff.mpr hj'.2
  by_cases hlast : k < prioMax
  · left
    have hne : r k ≠ [] := by
      intro e
      have := (h k (by omega) (by omega)).eq_nil_iff.mp e
      rcases hstop with hs | hs
      · omega
      · exact hs ⟨by omega, this⟩
    refine ⟨k, ?_, hlast, hne, rfl⟩
    simp only [lowest, List.find?_range_eq_some]
    refine ⟨by simpa using hne, List.mem_range.mpr hlast, ?_⟩
    intro j hj
    simp [empty_below j hj]
  · right
    refine ⟨?_, by omega⟩
    simp only [lowest, List.find?_range_eq_none]
    intro j hj
    simp [empty_below j (by omega)]

theorem Holds.pop (hq : Holds q pr xs) (hne : xs ≠ []) : xs.head? = some (q.slot pr (q.head pr)) ∧
      Holds { q with head := fun k => if k = pr then (q.head pr + 1).tmod queueSize else q.head k }
        pr xs.tail := by
  have hidx : q.head pr ≠ q.tail pr := fun e => hne (hq.eq_nil_iff.mpr e)
  obtain ⟨h, t, hh, ht, eh, et, rfl⟩ := hq
  have hht : h ≠ t := fun e => hidx (by rw [eh, et, e])
  rw [Ring.contents_pop hh ht hht]
  refine ⟨by rw [eh]; rfl, (h + 1) % queueSize, t, Nat.mod_lt _ (by decide), ht, ?_, et, rfl⟩
  simp only [if_true, eh, next_tmod]

theorem fpDequeue_spec (h : Represents q r) :
    (fpDequeue q).1 = (fifoDequeue r).1 ∧ Represents (fpDequeue q).2 (fifoDequeue r).2 := by
  rcases firstNonEmpty_eq h with ⟨k, hlow, hk, hne, hfirst⟩ | ⟨hlow, hfirst⟩
  · obtain ⟨hhead, htail⟩ := (h k (by omega) (by omega)).pop hne
    have hlt : ¬ ((k : Int) ≥ prioMax) := by omega
    constructor
    · simp only [fpDequeue, fifoDequeue, hfirst, hlow, if_neg hlt, hhead]
    intro pr hlo hhi
    simp only [fpDequeue, fifoDequeue, hfirst, hlow, if_neg hlt]
    by_cases hpr : pr = k
    · subst hpr
      rw [if_pos rfl]
      exact htail
    · rw [if_neg hpr]
      simpa only [Holds, if_neg hpr] using h pr hlo hhi
  · simp only [fpDequeue, fifoDequeue, hfirst, hlow, ge_iff_le, Int.le_refl, if_true]
    exact ⟨trivial, h⟩

/-- `fp_enqueue` of a `RUNNABLE` process does what the reference does. -/
theorem fpEnqueue_spec (h : Represents q r) (p : P) (hlo : 0 ≤ pr) (hhi : pr < prioMax)
    (hlapse : ¬ (q.head pr = 0 ∧ q.tail pr = queueSize - 1)) :
    (fpEnqueue q p .runnable pr).1 = (fifoEnqueue r p pr).1 ∧
      Represents (fpEnqueue q p .runnable pr).2 (fifoEnqueue r p pr).2 := by
  have hrun : fpEnqueue q p .runnable pr = enqueueAt q p pr := by simp [fpEnqueue]
  rw [hrun]
  rcases enqueueAt_spec (h pr hlo hhi) p hlapse with ⟨hfull, hq⟩ | ⟨hfree, hcode, hholds⟩
  · rw [hq, fifoEnqueue_full p hfull]
    exact ⟨rfl, h⟩
  rw [fifoEnqueue_free p (by omega)]
  refine ⟨hcode, ?_⟩
  intro k hk0 hk1
  by_cases hk : k = pr
  · subst hk
    simpa only [if_true] using hholds
  · simp only [if_neg hk]
    exact enqueueAt_other hk p (h k hk0 hk1)

/-- A call that does not lapse agrees with the reference and keeps the relation. -/
theorem fpStep_spec (h : Represents q r) (hop : op.InRange) (hlapse : ¬ LapsesAt q op) :
    (fpStep q op).1 = (fifoStep r op).1 ∧ Represents (fpStep q op).2 (fifoStep r op).2 := by
  cases op with
  | enqueue p pr =>
    obtain ⟨hcode, hrep⟩ := fpEnqueue_spec h p hop.1 hop.2 hlapse
    exact ⟨congrArg QueueResult.code hcode, hrep⟩
  | dequeue =>
    obtain ⟨hproc, hrep⟩ := fpDequeue_spec h
    exact ⟨congrArg QueueResult.proc hproc, hrep⟩

theorem fpStep_lapse (h : Represents q r) (hop : op.InRange) (hlapse : LapsesAt q op) :
    (fpStep q op).1 ≠ (fifoStep r op).1 := by
  cases op with
  | enqueue p pr =>
    have hfull := (h pr hop.1 hop.2).length_of_lapse hlapse
    have hcode : (fpEnqueue q p .runnable pr).1 = 1 := by
      simpa [fpEnqueue] using enqueueAt_lapse p hlapse
    simp [fpStep, fifoStep, fifoEnqueue_full p (Nat.le_of_eq hfull.symm), hcode]
  | dequeue => exact hlapse.elim

/-! ## Sequences of calls -/

theorem fpResults_eq_iff (h : Represents q r) (ops : List (QueueOp P))
    (hops : ∀ op ∈ ops, op.InRange) : fpResults q ops = fifoResults r ops ↔ NeverLapses q ops := by
  induction ops generalizing q r with
  | nil => simp [fpResults, fifoResults, NeverLapses]
  | cons op ops ih =>
    have hop := hops op List.mem_cons_self
    have hrest := fun o ho => hops o (List.mem_cons_of_mem op ho)
    simp only [fpResults, fifoResults, NeverLapses, List.cons.injEq]
    by_cases hlapse : LapsesAt q op
    · exact iff_of_false (fun e => fpStep_lapse h hop hlapse e.1) (fun e => e.1 hlapse)
    · obtain ⟨hres, hrep⟩ := fpStep_spec h hop hlapse
      rw [ih hrep hrest]
      exact and_congr_left' (iff_of_true hres hlapse)

/-! ## Every accepted entry leaves once and in order -/

/-- An entry that entered or left the queue of a priority. -/
inductive QueueEvent (P : Type)
  | accepted (pr : Int) (p : P)
  | taken (pr : Int) (p : P)

/-- What one call moved, read off the code's own result. -/
def fpEvent (q : ReadyQueues P) : QueueOp P → List (QueueEvent P)
  | .enqueue p pr => if (fpEnqueue q p .runnable pr).1 = 1 then [.accepted pr p] else []
  | .dequeue =>
    match (fpDequeue q).1 with
    | none => []
    | some p => [.taken (firstNonEmpty q prioMax 0) p]

def fpEvents (q : ReadyQueues P) : List (QueueOp P) → List (QueueEvent P)
  | [] => []
  | op :: ops => fpEvent q op ++ fpEvents (fpStep q op).2 ops

/-- The entries accepted at a priority, in order. -/
def entered (pr : Int) (es : List (QueueEvent P)) : List P :=
  es.filterMap fun
    | .accepted k p => if k = pr then some p else none
    | .taken _ _ => none

/-- The entries handed out at a priority, in order. -/
def left (pr : Int) (es : List (QueueEvent P)) : List P :=
  es.filterMap fun
    | .accepted _ _ => none
    | .taken k p => if k = pr then some p else none

theorem entered_append (es fs : List (QueueEvent P)) :
    entered pr (es ++ fs) = entered pr es ++ entered pr fs :=
  List.filterMap_append

theorem left_append (es fs : List (QueueEvent P)) : left pr (es ++ fs) = left pr es ++ left pr fs :=
  List.filterMap_append

/-- One call: what was held followed by what entered is what left followed by what is
held now. -/
theorem fpEvent_conserves (h : Represents q r) (hop : op.InRange) (hlapse : ¬ LapsesAt q op)
    (pr : Int) :
    r pr ++ entered pr (fpEvent q op) = left pr (fpEvent q op) ++ (fifoStep r op).2 pr := by
  have hres := (fpStep_spec h hop hlapse).1
  cases op with
  | enqueue p k =>
    have hcode : (fpEnqueue q p .runnable k).1 = (fifoEnqueue r p k).1 :=
      QueueResult.code.inj hres
    simp only [fpEvent, hcode, fifoStep]
    by_cases hfull : queueSize - 1 ≤ (r k).length
    · simp [fifoEnqueue_full p hfull, entered, left]
    · by_cases hk : pr = k
      · subst hk; simp [fifoEnqueue_free p hfull, entered, left]
      · simp [fifoEnqueue_free p hfull, entered, left, hk, Ne.symm hk]
  | dequeue =>
    have hproc : (fpDequeue q).1 = (fifoDequeue r).1 := QueueResult.proc.inj hres
    rcases firstNonEmpty_eq h with ⟨k, hlow, hk, hne, hfirst⟩ | ⟨hlow, hfirst⟩
    · obtain ⟨x, xs, hx⟩ := List.exists_cons_of_ne_nil hne
      simp only [fpEvent, hproc, fifoStep, fifoDequeue, hlow, hfirst, hx]
      by_cases hpr : pr = k
      · subst hpr; simp [entered, left, hx]
      · simp [entered, left, hpr, Ne.symm hpr]
    · simp [fpEvent, hproc, fifoStep, fifoDequeue, hlow, entered, left]

theorem fpEvents_conserve (h : Represents q r) (ops : List (QueueOp P))
    (hops : ∀ op ∈ ops, op.InRange) (hnever : NeverLapses q ops) (hlo : 0 ≤ pr) (hhi : pr < prioMax) :
    ∃ ys, r pr ++ entered pr (fpEvents q ops) = left pr (fpEvents q ops) ++ ys ∧
      Holds (fpAfter q ops) pr ys := by
  induction ops generalizing q r with
  | nil => exact ⟨r pr, by simp [fpEvents, entered, left], h pr hlo hhi⟩
  | cons op ops ih =>
    have hop := hops op List.mem_cons_self
    have hcall := fpEvent_conserves h hop hnever.1 pr
    obtain ⟨ys, hys, hholds⟩ := ih (fpStep_spec h hop hnever.1).2
      (fun o ho => hops o (List.mem_cons_of_mem op ho)) hnever.2
    refine ⟨ys, ?_, hholds⟩
    rw [fpEvents, entered_append, left_append, ← List.append_assoc, hcall,
      List.append_assoc, hys, List.append_assoc]

/-! ## The queues as lists -/

def ReadyQueues.lists (q : ReadyQueues P) : FifoQueues P := fun pr =>
  Ring.contents queueSize (q.head pr).toNat (q.tail pr).toNat fun i => q.slot pr i

def ReadyQueues.InBounds (q : ReadyQueues P) : Prop := Represents q q.lists

theorem Holds.eq_lists (h : Holds q pr xs) : xs = q.lists pr := by
  obtain ⟨h, t, -, -, eh, et, rfl⟩ := h
  simp only [ReadyQueues.lists, eh, et, Int.toNat_natCast]

theorem Represents.inBounds (h : Represents q r) : q.InBounds := by
  intro pr hlo hhi
  have hq := h pr hlo hhi
  rwa [hq.eq_lists] at hq

theorem lists_enqueueAt_of_ne (q : ReadyQueues P) (p : P) {k : Int} (hk : k ≠ pr) :
    (enqueueAt q p pr).2.lists k = q.lists k := by
  unfold enqueueAt
  dsimp only
  split
  · rfl
  · simp only [ReadyQueues.lists, hk, false_and, if_false]

theorem Holds.lapse (p : P) (hlapse : q.head pr = 0 ∧ q.tail pr = queueSize - 1) :
    Holds (enqueueAt q p pr).2 pr [] := by
  have hfull : ¬ q.tail pr = (q.head pr - 1).tmod queueSize := by
    rw [hlapse.1, hlapse.2]
    decide
  refine ⟨0, 0, by decide, by decide, ?_, ?_, rfl⟩
  · simp only [enqueueAt, if_neg hfull]
    exact hlapse.1
  · simp only [enqueueAt, if_neg hfull, if_true]
    rw [hlapse.2]
    decide

/-- The shared enqueue body on the lists: a full one stays or is lost, another one grows. -/
theorem enqueueAt_lists (h : q.InBounds) (p : P) (hlo : 0 ≤ pr) (hhi : pr < prioMax) :
    (enqueueAt q p pr).2.InBounds ∧
      (queueSize - 1 ≤ (q.lists pr).length ∧ ((enqueueAt q p pr).2.lists = q.lists ∨
          (enqueueAt q p pr).2.lists = update q.lists pr []) ∨
        (q.lists pr).length < queueSize - 1 ∧
          (enqueueAt q p pr).2.lists = update q.lists pr (q.lists pr ++ [p])) := by
  have hq := h pr hlo hhi
  have hset : ∀ xs, Holds (enqueueAt q p pr).2 pr xs → (enqueueAt q p pr).2.InBounds ∧
      (enqueueAt q p pr).2.lists = update q.lists pr xs := by
    intro xs hxs
    have hlists : (enqueueAt q p pr).2.lists = update q.lists pr xs := by
      funext k
      by_cases hk : k = pr
      · subst hk
        rw [update_self, ← hxs.eq_lists]
      · rw [update_of_ne hk, lists_enqueueAt_of_ne q p hk]
    refine ⟨fun k hk0 hk1 => ?_, hlists⟩
    by_cases hk : k = pr
    · subst hk
      rwa [hxs.eq_lists] at hxs
    · rw [lists_enqueueAt_of_ne q p hk]
      exact enqueueAt_other hk p (h k hk0 hk1)
  by_cases hlapse : q.head pr = 0 ∧ q.tail pr = queueSize - 1
  · obtain ⟨hbounds, hlists⟩ := hset [] (.lapse p hlapse)
    exact ⟨hbounds, .inl ⟨Nat.le_of_eq (hq.length_of_lapse hlapse).symm, .inr hlists⟩⟩
  rcases enqueueAt_spec hq p hlapse with ⟨hfull, heq⟩ | ⟨hfree, -, hholds⟩
  · rw [heq]
    exact ⟨h, .inl ⟨hfull, .inl rfl⟩⟩
  · obtain ⟨hbounds, hlists⟩ := hset _ hholds
    exact ⟨hbounds, .inr ⟨hfree, hlists⟩⟩

theorem fpDequeue_lists (h : q.InBounds) : (fpDequeue q).2.InBounds ∧
      ((fpDequeue q).1 = none ∧ (fpDequeue q).2.lists = q.lists ∨
        ∃ (k : Int) (p : P) (xs : List P), 0 ≤ k ∧ k < prioMax ∧ (∀ j, 0 ≤ j → j < k → q.lists j = []) ∧
          q.lists k = p :: xs ∧ (fpDequeue q).1 = some p ∧
          (fpDequeue q).2.lists = update q.lists k xs) := by
  refine ⟨(fpDequeue_spec h).2.inBounds, ?_⟩
  obtain ⟨hlo, hhi, hbelow, hstop⟩ := firstNonEmpty_spec q prioMax 0
  unfold fpDequeue
  dsimp only
  generalize firstNonEmpty q prioMax 0 = k at hlo hhi hbelow hstop ⊢
  split
  · exact .inl ⟨rfl, rfl⟩
  right
  have hne : q.lists k ≠ [] := by
    intro hnil
    have heq := (h k hlo (by omega)).eq_nil_iff.mp hnil
    rcases hstop with hs | hs
    · omega
    · exact hs ⟨by omega, heq⟩
  obtain ⟨hhead, htail⟩ := (h k hlo (by omega)).pop hne
  refine ⟨k, q.slot k (q.head k), (q.lists k).tail, hlo, by omega, ?_, ?_, rfl, ?_⟩
  · intro j hj0 hj
    exact (h j hj0 (by omega)).eq_nil_iff.mpr (hbelow j hj0 hj).2
  · obtain ⟨x, xs, hx⟩ := List.exists_cons_of_ne_nil hne
    rw [hx] at hhead ⊢
    rw [Option.some.inj hhead, List.tail_cons]
  · funext j
    by_cases hj : j = k
    · subst hj
      rw [update_self, ← htail.eq_lists]
    · rw [update_of_ne hj]
      simp only [ReadyQueues.lists, if_neg hj]

/-! ## Results -/

/-- From empty queues the code returns what the reference returns, over any sequence of
in-range calls, exactly when no `fp_enqueue` of the sequence meets a queue with head
index `0` and tail index `QUEUESIZE - 1`; and then every accepted entry is handed out
once, in order, or is still queued. -/
theorem fpQueues_refine_fifo_iff (slot : Int → Int → P) (ops : List (QueueOp P))
    (hops : ∀ op ∈ ops, op.InRange) :
    (fpResults (.empty slot) ops = fifoResults fifoEmpty ops ↔ NeverLapses (.empty slot) ops) ∧
      (NeverLapses (.empty slot) ops → ∀ pr : Int, 0 ≤ pr → pr < prioMax →
        ∃ queued, Holds (fpAfter (.empty slot) ops) pr queued ∧
          entered pr (fpEvents (.empty slot) ops) =
            left pr (fpEvents (.empty slot) ops) ++ queued) := by
  refine ⟨fpResults_eq_iff (represents_empty slot) ops hops, ?_⟩
  intro hnever pr hlo hhi
  obtain ⟨ys, hys, hholds⟩ :=
    fpEvents_conserve (represents_empty slot) ops hops hnever hlo hhi
  exact ⟨ys, hholds, by simpa [fifoEmpty] using hys⟩

/-- Two processes queued at priorities 3 and 1 and one dequeue: nothing lapses. -/
theorem fpQueues_refine_fifo_two : fpResults (.empty fun _ _ => 0) [.enqueue 7 3, .enqueue 8 1, .dequeue] =
      fifoResults fifoEmpty [.enqueue 7 3, .enqueue 8 1, .dequeue] :=
  ((fpQueues_refine_fifo_iff (fun _ _ => 0) [.enqueue 7 3, .enqueue 8 1, .dequeue]
    (by simp [QueueOp.InRange])).1).mpr
      (by simp [NeverLapses, LapsesAt, fpStep, fpEnqueue, enqueueAt, ReadyQueues.empty])

/-- Fifty entries at priority 0 are all accepted, where the reference refuses the last,
and the queue then reads as empty. -/
theorem fpQueues_lose_fifty :
    (∀ op ∈ List.replicate 50 (QueueOp.enqueue 7 0) ++ [.dequeue], QueueOp.InRange op) ∧
      fpResults (.empty fun _ _ => 0) (List.replicate 50 (.enqueue 7 0) ++ [.dequeue]) ≠
        fifoResults fifoEmpty (List.replicate 50 (.enqueue 7 0) ++ [.dequeue]) ∧
      fpResults (.empty fun _ _ => 0) (List.replicate 50 (.enqueue 7 0) ++ [.dequeue]) =
        List.replicate 50 (.code 1) ++ [.proc none] := by
  refine ⟨?_, by decide +kernel, by decide +kernel⟩
  intro op hop
  rcases List.mem_append.mp hop with h | h
  · rw [List.eq_of_mem_replicate h]
    exact ⟨by decide, by decide⟩
  · rw [List.mem_singleton.mp h]
    trivial

end Xv6.Sched
