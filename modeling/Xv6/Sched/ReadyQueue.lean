import Xv6.Params

/-! # The ready queues of `proc.c`

`ptable.htindex` and `ptable.pqueues` as the code keeps them: for each priority a
head index, a tail index and `QUEUESIZE` process pointers. Indices are C `int`s,
so `%` is the remainder that keeps the sign of its left operand.

`fp_enqueue` and `hfs_enqueue` share their circular-buffer body and differ in the
priority they read; `fp_dequeue` and `hfs_dequeue` have the same text.
-/

namespace Xv6.Sched

variable {P : Type}

/-- `htindex[pr][0]`, `htindex[pr][1]` and `pqueues[pr][i]`. -/
structure ReadyQueues (P : Type) where
  head : Int → Int
  tail : Int → Int
  slot : Int → Int → P

/-- The queues as they stand after boot; the static array is never read before it
is written, so its initial content is arbitrary. -/
def ReadyQueues.empty (slot : Int → Int → P) : ReadyQueues P where
  head := fun _ => 0
  tail := fun _ => 0
  slot := slot

/-- The body shared by the two enqueue functions, at a given priority. -/
def enqueueAt (q : ReadyQueues P) (p : P) (priority : Int) : Int × ReadyQueues P :=
  let head := q.head priority
  let tail := q.tail priority
  if tail = (head - 1).tmod queueSize then (-1, q)
  else
    (1, { q with
      slot := fun pr i => if pr = priority ∧ i = tail then p else q.slot pr i
      tail := fun pr => if pr = priority then (tail + 1).tmod queueSize else q.tail pr })

/-- `fp_enqueue(p)`, given the fields of `*p` it reads. -/
def fpEnqueue (q : ReadyQueues P) (p : P) (state : ProcState) (fpPriority : Int) :
    Int × ReadyQueues P :=
  if state ≠ .runnable then (-1, q) else enqueueAt q p fpPriority

/-- `hfs_enqueue(p)`; the last component is `p->hfs_priority` after the call. -/
def hfsEnqueue (q : ReadyQueues P) (p : P) (state : ProcState) (hfsPriority : Int) :
    Int × ReadyQueues P × Int :=
  if state ≠ .runnable then (-1, q, hfsPriority)
  else
    let priority := if hfsPriority > hfsPrioMax then (hfsPrioMax : Int) else hfsPriority
    let (r, q') := enqueueAt q p priority
    (r, q', priority)

/-- The `while` loop of the dequeue functions. Its counter rises by one a round, so
`PRIO_MAX` rounds of fuel always reach its exit. -/
def firstNonEmpty (q : ReadyQueues P) : Nat → Int → Int
  | 0, priority => priority
  | fuel + 1, priority =>
    if priority < prioMax ∧ q.head priority = q.tail priority then
      firstNonEmpty q fuel (priority + 1)
    else priority

/-- `fp_dequeue()`; `none` is the source's `NULL`. -/
def fpDequeue (q : ReadyQueues P) : Option P × ReadyQueues P :=
  let priority := firstNonEmpty q prioMax 0
  if priority ≥ prioMax then (none, q)
  else
    let head := q.head priority
    (some (q.slot priority head),
      { q with head := fun pr => if pr = priority then (head + 1).tmod queueSize else q.head pr })

/-- `hfs_dequeue()`, the same text as `fp_dequeue()`. -/
def hfsDequeue (q : ReadyQueues P) : Option P × ReadyQueues P :=
  fpDequeue q

/-! ## Sequences of calls -/

/-- One call on the ready queues: `fp_enqueue` of a `RUNNABLE` process with the given
`fp_priority`, or `fp_dequeue`. -/
inductive QueueOp (P : Type)
  | enqueue (p : P) (fpPriority : Int)
  | dequeue
  deriving DecidableEq

/-- The calls whose priority is in `0 .. PRIO_MAX - 1`. -/
def QueueOp.InRange : QueueOp P → Prop
  | .enqueue _ pr => 0 ≤ pr ∧ pr < prioMax
  | .dequeue => True

inductive QueueResult (P : Type)
  | code (r : Int)
  | proc (p : Option P)
  deriving DecidableEq

def fpStep (q : ReadyQueues P) : QueueOp P → QueueResult P × ReadyQueues P
  | .enqueue p pr => let (r, q') := fpEnqueue q p .runnable pr; (.code r, q')
  | .dequeue => let (p, q') := fpDequeue q; (.proc p, q')

/-- The results of a sequence of calls, in order. -/
def fpResults (q : ReadyQueues P) : List (QueueOp P) → List (QueueResult P)
  | [] => []
  | op :: ops => (fpStep q op).1 :: fpResults (fpStep q op).2 ops

def fpAfter (q : ReadyQueues P) : List (QueueOp P) → ReadyQueues P
  | [] => q
  | op :: ops => fpAfter (fpStep q op).2 ops

end Xv6.Sched
