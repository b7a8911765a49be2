import Mathlib.Data.Finset.Card
import Mathlib.Data.Finset.Insert
import Mathlib.Data.Fintype.EquivFin
import Mathlib.Algebra.BigOperators.Group.List.Basic
import Xv6.Lib.Transition
import Xv6.Log.Model

/-! # Log space: the admission test of `begin_op` against the test of `log_write`

`begin_op` reserves `MAXOPBLOCKS` blocks for a call by a test against `LOGSIZE`, while
`log_write` stops the machine once the header lists `log.size - 1` blocks, before it
looks whether the block is already listed and before it takes `log.lock`. The machine
below interleaves any number of calls at these points.
-/

namespace Xv6.Log

open Lib

variable {lh : LogHeader} {b i : Nat} {size : Int} {logged : List Nat}

/-! ## The machine -/

/-- A file-system call between its `begin_op` and its `end_op`: the distinct blocks it
has handed to `log_write`, and the block of a `log_write` that has passed the tests and
waits for `log.lock`. -/
structure Call where
  logged : List Nat
  entered : Option Nat

/-- The part of `struct log` the three functions share, the calls under way, and the
message of a `panic`. -/
structure OpState where
  lh : LogHeader
  outstanding : Int
  committing : Bool
  calls : List Call
  panic : Option String

/-- The log after `initlog`: recovery has left an empty header. -/
def OpState.init : OpState := ⟨⟨0, fun _ => 0⟩, 0, false, [], none⟩

/-- The search of `log_write`: the first index that lists the block, or `lh.n`. -/
def absorbIndex (lh : LogHeader) (b : Nat) : Nat :=
  ((List.range lh.n.toNat).find? fun i => lh.block i == b).getD lh.n.toNat

def absorb (lh : LogHeader) (b : Nat) : LogHeader :=
  let i := absorbIndex lh b
  { n := if (i : Int) = lh.n then lh.n + 1 else lh.n
    block := Function.update lh.block i b }

def beginOp (s : OpState) : Option OpState :=
  if s.committing then none
  else if s.lh.n + (s.outstanding + 1) * maxOpBlocks > logSize then none
  else some { s with outstanding := s.outstanding + 1, calls := s.calls ++ [⟨[], none⟩] }

/-- The tests of `log_write(b)` by call `i`, made without `log.lock`. -/
def logWriteTest (size : Int) (s : OpState) (i b : Nat) : Option OpState :=
  match s.calls[i]? with
  | some ⟨logged, none⟩ =>
    if s.lh.n ≥ logSize ∨ s.lh.n ≥ size - 1 then
      some { s with panic := some "too big a transaction" }
    else if s.outstanding < 1 then some { s with panic := some "log_write outside of trans" }
    else some { s with calls := s.calls.set i ⟨logged.insert b, some b⟩ }
  | _ => none

/-- The rest of that `log_write`, under `log.lock`. -/
def logWriteStore (s : OpState) (i : Nat) : Option OpState :=
  match s.calls[i]? with
  | some ⟨logged, some b⟩ =>
    some { s with lh := absorb s.lh b, calls := s.calls.set i ⟨logged, none⟩ }
  | _ => none

/-- `end_op()` of call `i`, up to its `release`. -/
def endOp (s : OpState) (i : Nat) : Option OpState :=
  match s.calls[i]? with
  | some ⟨_, none⟩ =>
    if s.committing then
      some { s with outstanding := s.outstanding - 1, panic := some "log.committing" }
    else some { s with
      outstanding := s.outstanding - 1
      committing := s.outstanding - 1 = 0
      calls := s.calls.eraseIdx i }
  | _ => none

/-- `commit()` and the end of `end_op`. No call runs and `begin_op` sleeps while
`log.committing` is set, so nothing sees the states in between. -/
def commitOp (s : OpState) : Option OpState :=
  if s.committing then
    some { s with
      lh := if s.lh.n > 0 then { s.lh with n := 0 } else s.lh
      committing := false }
  else none

/-- Call `i` has logged the block, or fewer than `MAXOPBLOCKS` others. -/
def OpState.Fits (s : OpState) (i b : Nat) : Prop :=
  ∀ c ∈ s.calls[i]?, b ∈ c.logged ∨ c.logged.length < maxOpBlocks

instance (s : OpState) (i b : Nat) : Decidable (s.Fits i b) :=
  inferInstanceAs (Decidable (∀ c ∈ s.calls[i]?, _))

inductive OpAction
  | beginOp
  | logWriteTest (i b : Nat)
  | logWriteStore (i : Nat)
  | endOp (i : Nat)
  | commit
  deriving DecidableEq

/-- A call that would exceed `MAXOPBLOCKS` distinct blocks takes no step. -/
def opStep (size : Int) (s : OpState) (a : OpAction) : Option OpState :=
  if s.panic.isSome then none
  else match a with
    | .beginOp => beginOp s
    | .logWriteTest i b => if s.Fits i b then logWriteTest size s i b else none
    | .logWriteStore i => logWriteStore s i
    | .endOp i => endOp s i
    | .commit => commitOp s

def OpStep (size : Int) (s : OpState) (a : OpAction) (t : OpState) : Prop :=
  opStep size s a = some t

/-! ## The space the calls under way may still need -/

def LogHeader.blocks (lh : LogHeader) : List Nat :=
  (List.range lh.n.toNat).map lh.block

/-- The blocks listed in the header or about to be. -/
def OpState.charged (s : OpState) : Finset Nat :=
  (s.lh.blocks ++ s.calls.filterMap Call.entered).toFinset

/-- The distinct blocks a call may still log. -/
def Call.remaining (c : Call) : Nat := maxOpBlocks - c.logged.length

/-- How long the header may get before the calls under way have ended. -/
def OpState.reserve (s : OpState) : Nat :=
  s.charged.card + (s.calls.map Call.remaining).sum

/-- An admission that leaves `log_write` room for every call under way and the new one. -/
def Reserved (size : Int) (s : OpState) (a : OpAction) : Prop :=
  a = .beginOp → (s.reserve : Int) + maxOpBlocks ≤ size - 2

instance (size : Int) (s : OpState) (a : OpAction) : Decidable (Reserved size s a) :=
  inferInstanceAs (Decidable (a = .beginOp → _))

/-! ## The header under `absorb` -/

variable {s t : OpState}

theorem blocks_length : lh.blocks.length = lh.n.toNat := by
  simp [LogHeader.blocks]

theorem absorb_listed (h : b ∈ lh.blocks) : (absorb lh b).n = lh.n ∧ (absorb lh b).blocks = lh.blocks := by
  obtain ⟨j, hj, hjb⟩ := List.mem_map.mp h
  have hsome : ((List.range lh.n.toNat).find? fun i => lh.block i == b).isSome := by
    rw [List.find?_isSome]
    exact ⟨j, hj, by simp [hjb]⟩
  obtain ⟨i, hi⟩ := Option.isSome_iff_exists.mp hsome
  have hib : lh.block i = b := by simpa using List.find?_some hi
  have hlt : i < lh.n.toNat := List.mem_range.mp (List.mem_of_find?_eq_some hi)
  have hn : (absorb lh b).n = lh.n := by
    simp only [absorb, absorbIndex, hi, Option.getD_some]
    rw [if_neg (by omega)]
  have hblock : (absorb lh b).block = lh.block := by
    simp only [absorb, absorbIndex, hi, Option.getD_some]
    rw [← hib, Function.update_eq_self]
  refine ⟨hn, ?_⟩
  unfold LogHeader.blocks
  rw [hn, hblock]

theorem absorb_new (hn : 0 ≤ lh.n) (h : b ∉ lh.blocks) :
    (absorb lh b).n = lh.n + 1 ∧ (absorb lh b).blocks = lh.blocks ++ [b] := by
  have hnone : ((List.range lh.n.toNat).find? fun i => lh.block i == b) = none := by
    rw [List.find?_eq_none]
    intro i hi hib
    exact h (List.mem_map.mpr ⟨i, hi, by simpa using hib⟩)
  have hidx : absorbIndex lh b = lh.n.toNat := by
    rw [absorbIndex, hnone, Option.getD_none]
  have hn' : (absorb lh b).n = lh.n + 1 := by
    simp only [absorb, hidx]
    rw [if_pos (by omega)]
  refine ⟨hn', ?_⟩
  have hlen : (lh.n + 1).toNat = lh.n.toNat + 1 := by omega
  unfold LogHeader.blocks
  rw [hn', hlen, List.range_succ, List.map_append]
  simp only [absorb, hidx, List.map_cons, List.map_nil, Function.update_self]
  congr 1
  refine List.map_congr_left fun i hi => Function.update_of_ne ?_ _ _
  have := List.mem_range.mp hi
  omega

theorem mem_absorb {x : Nat} (hn : 0 ≤ lh.n) : x ∈ (absorb lh b).blocks ↔ x ∈ lh.blocks ∨ x = b := by
  by_cases h : b ∈ lh.blocks
  · rw [(absorb_listed h).2]
    exact ⟨.inl, fun hx => hx.elim id fun e => e ▸ h⟩
  · rw [(absorb_new hn h).2, List.mem_append, List.mem_singleton]

theorem absorb_nodup (hn : 0 ≤ lh.n) (h : lh.blocks.Nodup) (b : Nat) :
    0 ≤ (absorb lh b).n ∧ (absorb lh b).blocks.Nodup := by
  by_cases hb : b ∈ lh.blocks
  · rw [(absorb_listed hb).1, (absorb_listed hb).2]
    exact ⟨hn, h⟩
  · rw [(absorb_new hn hb).1, (absorb_new hn hb).2]
    exact ⟨by omega, h.append (List.nodup_singleton b) (by simpa using hb)⟩

/-! ## The books -/

/-- The bookkeeping of the three functions, whatever is admitted and logged. -/
structure Books (s : OpState) : Prop where
  n_nonneg : 0 ≤ s.lh.n
  nodup : s.lh.blocks.Nodup
  outstanding_eq : s.outstanding = s.calls.length
  quiet : s.committing = true → s.calls = []

theorem books_init : Books OpState.init := ⟨by decide, by decide, rfl, fun _ => rfl⟩

theorem calls_split {calls : List Call} {c : Call} (h : calls[i]? = some c) :
    ∃ pre post, calls = pre ++ c :: post ∧ (∀ c', calls.set i c' = pre ++ c' :: post) ∧
      calls.eraseIdx i = pre ++ post := by
  obtain ⟨hi, rfl⟩ := List.getElem?_eq_some_iff.mp h
  refine ⟨calls.take i, calls.drop (i + 1), ?_, fun c' => ?_, List.eraseIdx_eq_take_drop_succ ..⟩
  · rw [List.getElem_cons_drop, List.take_append_drop]
  · rw [List.set_eq_take_append_cons_drop, if_pos hi]

theorem ne_nil_of_getElem? {calls : List Call} {c : Call} (h : calls[i]? = some c) : calls ≠ [] := by
  rintro rfl
  cases h

theorem mem_charged {x : Nat} :
    x ∈ s.charged ↔ x ∈ s.lh.blocks ∨ ∃ c ∈ s.calls, c.entered = some x := by
  simp [OpState.charged]

/-- While a call is under way nothing is being committed, and the call is counted. -/
theorem Books.busy (h : Books s) (hne : s.calls ≠ []) :
    s.committing = false ∧ ¬ s.outstanding < 1 := by
  refine ⟨Bool.eq_false_iff.mpr fun hq => hne (h.quiet hq), ?_⟩
  have := List.length_pos_iff.mpr hne
  rw [h.outstanding_eq]
  omega

theorem Books.begin (h : Books s) (hs : beginOp s = some t) :
    t = { s with outstanding := s.outstanding + 1, calls := s.calls ++ [⟨[], none⟩] } ∧
      s.committing = false ∧ Books t ∧ t.charged = s.charged := by
  unfold beginOp at hs
  split at hs
  · cases hs
  rename_i hc
  split at hs
  · cases hs
  cases hs
  refine ⟨rfl, by simpa using hc, ⟨h.n_nonneg, h.nodup, ?_, fun hq => absurd hq hc⟩, ?_⟩
  · simp [h.outstanding_eq]
  · ext x
    simp [mem_charged]

/-- A step of one call keeps the books if the header is still a list of distinct blocks. -/
theorem Books.replace {c : Call} (h : Books s) (hget : s.calls[i]? = some c)
    (hlh : 0 ≤ lh.n ∧ lh.blocks.Nodup) (c' : Call) :
    Books { s with lh := lh, calls := s.calls.set i c' } where
  n_nonneg := hlh.1
  nodup := hlh.2
  outstanding_eq := by
    rw [List.length_set]
    exact h.outstanding_eq
  quiet := fun hq => absurd (h.quiet hq) (ne_nil_of_getElem? hget)

/-- The tests either stop the machine or let the block in. -/
theorem Books.enter (h : Books s) (hs : logWriteTest size s i b = some t) :
    ∃ logged, s.calls[i]? = some ⟨logged, none⟩ ∧
      ((s.lh.n ≥ logSize ∨ s.lh.n ≥ size - 1) ∧ t = { s with panic := some "too big a transaction" } ∨
        ¬ (s.lh.n ≥ logSize ∨ s.lh.n ≥ size - 1) ∧
          t = { s with calls := s.calls.set i ⟨logged.insert b, some b⟩ } ∧ Books t ∧
          t.charged = insert b s.charged) := by
  unfold logWriteTest at hs
  split at hs
  · rename_i logged hget
    refine ⟨logged, hget, ?_⟩
    rw [if_neg (h.busy (ne_nil_of_getElem? hget)).2] at hs
    split at hs
    · rename_i hbig
      cases hs
      exact .inl ⟨hbig, rfl⟩
    rename_i hbig
    cases hs
    refine .inr ⟨hbig, rfl, h.replace hget ⟨h.n_nonneg, h.nodup⟩ _, ?_⟩
    obtain ⟨pre, post, hcalls, hset, -⟩ := calls_split hget
    ext x
    simp only [mem_charged, Finset.mem_insert, hset]
    simp only [hcalls, List.mem_append, List.mem_cons]
    grind
  · cases hs

theorem Books.store (h : Books s) (hs : logWriteStore s i = some t) :
    ∃ logged b, s.calls[i]? = some ⟨logged, some b⟩ ∧
      t = { s with lh := absorb s.lh b, calls := s.calls.set i ⟨logged, none⟩ } ∧ Books t ∧
      t.charged = s.charged := by
  unfold logWriteStore at hs
  split at hs
  · rename_i logged b hget
    cases hs
    refine ⟨logged, b, hget, rfl, h.replace hget (absorb_nodup h.n_nonneg h.nodup b) _, ?_⟩
    obtain ⟨pre, post, hcalls, hset, -⟩ := calls_split hget
    ext x
    simp only [mem_charged, mem_absorb h.n_nonneg, hset]
    simp only [hcalls, List.mem_append, List.mem_cons]
    grind
  · cases hs

theorem Books.end (h : Books s) (hs : endOp s i = some t) :
    ∃ logged, s.calls[i]? = some ⟨logged, none⟩ ∧ t = { s with
        outstanding := s.outstanding - 1
        committing := s.outstanding - 1 = 0
        calls := s.calls.eraseIdx i } ∧
      Books t ∧ t.charged = s.charged := by
  unfold endOp at hs
  split at hs
  · rename_i logged hget
    rw [if_neg (by simp [(h.busy (ne_nil_of_getElem? hget)).1])] at hs
    cases hs
    obtain ⟨pre, post, hcalls, -, herase⟩ := calls_split hget
    have hlen : s.outstanding = pre.length + post.length + 1 := by
      rw [h.outstanding_eq, hcalls, List.length_append, List.length_cons]
      omega
    refine ⟨logged, hget, rfl, ⟨h.n_nonneg, h.nodup, ?_, fun hq => ?_⟩, ?_⟩
    · dsimp only
      rw [herase, List.length_append]
      omega
    · have hz : s.outstanding - 1 = 0 := of_decide_eq_true hq
      rw [herase]
      exact List.eq_nil_of_length_eq_zero (by rw [List.length_append]; omega)
    · ext x
      simp only [mem_charged, herase]
      simp only [hcalls, List.mem_append, List.mem_cons]
      grind
  · cases hs

/-! ## What every reachable state satisfies -/

structure Orderly (s : OpState) : Prop extends Books s where
  logged_le : ∀ c ∈ s.calls, c.logged.length ≤ maxOpBlocks
  logged_charged : ∀ c ∈ s.calls, ∀ b ∈ c.logged, b ∈ s.charged
  idle : s.committing = false → s.calls = [] → s.lh.n = 0
  running : s.panic = none

theorem orderly_init : Orderly OpState.init :=
  ⟨books_init, by simp [OpState.init], by simp [OpState.init], fun _ _ => rfl, rfl⟩

theorem Orderly.n_le (h : Orderly s) : s.lh.n ≤ s.charged.card := by
  have hsub : s.lh.blocks.toFinset ⊆ s.charged := fun x hx =>
    mem_charged.mpr (.inl (List.mem_toFinset.mp hx))
  have hcard := Finset.card_le_card hsub
  rw [List.toFinset_card_of_nodup h.nodup, blocks_length] at hcard
  omega

theorem Orderly.begin (h : Orderly s) (hs : beginOp s = some t) :
    Orderly t ∧ t.reserve = s.reserve + maxOpBlocks := by
  obtain ⟨rfl, -, hbooks, hcharged⟩ := h.toBooks.begin hs
  refine ⟨⟨hbooks, ?_, ?_, fun _ hnil => absurd hnil (by simp), h.running⟩, ?_⟩
  · intro c hmem
    rcases List.mem_append.mp hmem with hmem | hmem
    · exact h.logged_le c hmem
    · rw [List.mem_singleton.mp hmem]
      exact Nat.zero_le _
  · intro c hmem
    rw [hcharged]
    rcases List.mem_append.mp hmem with hmem | hmem
    · exact h.logged_charged c hmem
    · rw [List.mem_singleton.mp hmem]
      exact fun b hb => absurd hb List.not_mem_nil
  · rw [OpState.reserve, hcharged]
    simp [OpState.reserve, Call.remaining, Nat.add_assoc]

/-- A step of one call keeps the order if the books are kept and the blocks of the call are
charged. -/
theorem Orderly.replace {c c' : Call} (h : Orderly s) (hget : s.calls[i]? = some c)
    (hbooks : Books { s with lh := lh, calls := s.calls.set i c' })
    (hle : c'.logged.length ≤ maxOpBlocks)
    (hcharged : ∀ b ∈ c'.logged, b ∈ { s with lh := lh, calls := s.calls.set i c' }.charged)
    (hmono : s.charged ⊆ { s with lh := lh, calls := s.calls.set i c' }.charged) :
    Orderly { s with lh := lh, calls := s.calls.set i c' } := by
  refine ⟨hbooks, ?_, ?_, fun _ hnil => ?_, h.running⟩
  · intro c1 hmem
    rcases List.mem_or_eq_of_mem_set hmem with hmem | rfl
    · exact h.logged_le c1 hmem
    · exact hle
  · intro c1 hmem b hb
    rcases List.mem_or_eq_of_mem_set hmem with hmem | rfl
    · exact hmono (h.logged_charged c1 hmem b hb)
    · exact hcharged b hb
  · exact absurd (by simpa using hnil) (ne_nil_of_getElem? hget)

/-- What a call may still do: two steps for every block it may log, and the store under way. -/
def Call.load (c : Call) : Nat := 2 * c.remaining + c.entered.toList.length

def OpState.load (s : OpState) : Nat := (s.calls.map Call.load).sum

/-- A `log_write` that passes the tests uses up what it takes of the reserve. -/
theorem Orderly.enter (h : Orderly s) (hfit : s.Fits i b)
    (hs : logWriteTest size s i b = some t) :
    (s.lh.n ≥ logSize ∨ s.lh.n ≥ size - 1) ∧ t.panic = some "too big a transaction" ∨
      ¬ (s.lh.n ≥ logSize ∨ s.lh.n ≥ size - 1) ∧ Orderly t ∧ t.calls ≠ [] ∧
        t.reserve ≤ s.reserve ∧ (b ∉ s.charged → t.reserve = s.reserve ∧ t.load < s.load) := by
  obtain ⟨logged, hget, ⟨hbig, rfl⟩ | ⟨hbig, rfl, hbooks, hcharged⟩⟩ := h.toBooks.enter hs
  · exact .inl ⟨hbig, rfl⟩
  refine .inr ⟨hbig, ?_⟩
  obtain ⟨pre, post, hcalls, hset, -⟩ := calls_split hget
  have hin : (⟨logged, none⟩ : Call) ∈ s.calls := List.mem_of_getElem? hget
  have hle : logged.length ≤ maxOpBlocks := h.logged_le _ hin
  have hins : (logged.insert b).length ≤ maxOpBlocks := by
    by_cases hb : b ∈ logged
    · rw [List.length_insert_of_mem hb]
      exact hle
    · rw [List.length_insert_of_not_mem hb]
      exact (hfit _ hget).resolve_left hb
  have hsum : ((s.calls.set i ⟨logged.insert b, some b⟩).map Call.remaining).sum +
      (logged.insert b).length = (s.calls.map Call.remaining).sum + logged.length := by
    simp only [hset]
    simp only [hcalls, List.map_append, List.map_cons, List.sum_append, List.sum_cons, Call.remaining]
    omega
  refine ⟨h.replace hget hbooks hins ?_ ?_, ?_, ?_, ?_⟩
  · intro x hx
    rw [hcharged, Finset.mem_insert]
    rcases List.mem_insert_iff.mp hx with rfl | hx
    · exact .inl rfl
    · exact .inr (h.logged_charged _ hin x hx)
  · rw [hcharged]
    exact Finset.subset_insert b s.charged
  · simp [hset]
  · by_cases hb : b ∈ logged
    · have hmem := h.logged_charged _ hin b hb
      rw [List.length_insert_of_mem hb] at hsum
      rw [OpState.reserve, OpState.reserve, hcharged, Finset.insert_eq_of_mem hmem]
      dsimp only
      omega
    · have hcard := Finset.card_insert_le b s.charged
      rw [List.length_insert_of_not_mem hb] at hsum
      rw [OpState.reserve, OpState.reserve, hcharged]
      dsimp only
      omega
  · intro hfresh
    have hb : b ∉ logged := fun hb => hfresh (h.logged_charged _ hin b hb)
    rw [List.length_insert_of_not_mem hb] at hsum hins
    rw [OpState.reserve, OpState.reserve, hcharged, Finset.card_insert_of_notMem hfresh]
    refine ⟨by dsimp only; omega, ?_⟩
    simp only [OpState.load, hset]
    simp [hcalls, Call.load, Call.remaining, List.length_insert_of_not_mem hb]
    omega

theorem Orderly.store (h : Orderly s) (hs : logWriteStore s i = some t) :
    Orderly t ∧ s.calls ≠ [] ∧ t.calls ≠ [] ∧ t.reserve = s.reserve ∧ t.load < s.load := by
  obtain ⟨logged, b, hget, rfl, hbooks, hcharged⟩ := h.toBooks.store hs
  obtain ⟨pre, post, hcalls, hset, -⟩ := calls_split hget
  have hin : (⟨logged, some b⟩ : Call) ∈ s.calls := List.mem_of_getElem? hget
  refine ⟨h.replace hget hbooks (h.logged_le ⟨logged, some b⟩ hin) ?_ hcharged.ge, ne_nil_of_getElem? hget, ?_, ?_, ?_⟩
  · intro x hx
    rw [hcharged]
    exact h.logged_charged _ hin x hx
  · simp [hset]
  · rw [OpState.reserve, OpState.reserve, hcharged]
    simp only [hset]
    simp only [hcalls, List.map_append, List.map_cons, Call.remaining]
  · simp only [OpState.load, hset]
    simp [hcalls, Call.load, Call.remaining]

theorem Orderly.end (h : Orderly s) (hs : endOp s i = some t) :
    Orderly t ∧ s.calls ≠ [] ∧ t.reserve ≤ s.reserve := by
  obtain ⟨logged, hget, rfl, hbooks, hcharged⟩ := h.toBooks.end hs
  have hsub : ∀ c ∈ s.calls.eraseIdx i, c ∈ s.calls := fun c hc => List.mem_of_mem_eraseIdx hc
  refine ⟨⟨hbooks, fun c hc => h.logged_le c (hsub c hc), ?_, ?_, h.running⟩,
    ne_nil_of_getElem? hget, ?_⟩
  · intro c hc
    rw [hcharged]
    exact h.logged_charged c (hsub c hc)
  · intro hq hnil
    have hz : ¬ s.outstanding - 1 = 0 := of_decide_eq_false hq
    have hout := hbooks.outstanding_eq
    rw [hnil] at hout
    exact absurd hout hz
  · obtain ⟨pre, post, hcalls, -, herase⟩ := calls_split hget
    rw [OpState.reserve, OpState.reserve, hcharged]
    simp only [herase]
    simp only [hcalls, List.map_append, List.map_cons, List.sum_append, List.sum_cons]
    omega

theorem Orderly.commit (h : Orderly s) (hs : commitOp s = some t) :
    Orderly t ∧ t.calls = [] := by
  unfold commitOp at hs
  split at hs
  · rename_i hc
    cases hs
    have hcalls := h.quiet hc
    have hz : (if s.lh.n > 0 then { s.lh with n := 0 } else s.lh).n = 0 := by
      have := h.n_nonneg
      split
      · rfl
      · omega
    refine ⟨⟨⟨hz.ge, ?_, h.outstanding_eq, fun _ => hcalls⟩, h.logged_le, ?_, fun _ _ => hz,
      h.running⟩, hcalls⟩
    · rw [LogHeader.blocks, hz]
      exact List.nodup_nil
    · intro c hmem
      rw [hcalls] at hmem
      exact absurd hmem List.not_mem_nil
  · cases hs

/-! ## Runs whose admissions are reserved -/

/-- The bookkeeping, and room for every call under way. -/
def Roomy (size : Int) (s : OpState) : Prop :=
  Orderly s ∧ (s.calls ≠ [] → (s.reserve : Int) ≤ size - 2)

theorem roomy_init (size : Int) : Roomy size OpState.init :=
  ⟨orderly_init, fun h => absurd rfl h⟩

theorem Roomy.step (hsize : size ≤ logSize) {a : OpAction} (h : Roomy size s)
    (hok : Reserved size s a) (hstep : OpStep size s a t) : Roomy size t := by
  obtain ⟨ho, hroom⟩ := h
  unfold OpStep opStep at hstep
  rw [if_neg (by simp [ho.running])] at hstep
  cases a with
  | beginOp =>
    obtain ⟨ht, hr⟩ := ho.begin hstep
    refine ⟨ht, fun _ => ?_⟩
    rw [hr]
    have := hok rfl
    omega
  | logWriteTest i b =>
    dsimp only at hstep
    split at hstep
    · rename_i hfit
      obtain ⟨logged, hget, -⟩ := ho.toBooks.enter hstep
      have hres := hroom (ne_nil_of_getElem? hget)
      rcases ho.enter hfit hstep with ⟨hbig, -⟩ | ⟨-, ht, -, hr, -⟩
      · -- the header is within the reserve, so the test does not fire
        have := ho.n_le
        rw [OpState.reserve] at hres
        omega
      · exact ⟨ht, fun _ => by omega⟩
    · cases hstep
  | logWriteStore i =>
    obtain ⟨ht, hne, -, hr, -⟩ := ho.store hstep
    exact ⟨ht, fun _ => hr ▸ hroom hne⟩
  | endOp i =>
    obtain ⟨ht, hne, hr⟩ := ho.end hstep
    have hres := hroom hne
    exact ⟨ht, fun _ => by omega⟩
  | commit =>
    obtain ⟨ht, hnil⟩ := ho.commit hstep
    exact ⟨ht, fun hne => absurd hnil hne⟩

/-! ## An admission that is not reserved -/

theorem opStep_test (size : Int) (h : Orderly s) (hget : s.calls[i]? = some ⟨logged, none⟩)
    (hfit : b ∈ logged ∨ logged.length < maxOpBlocks) :
    ∃ t, OpStep size s (.logWriteTest i b) t ∧ s.Fits i b ∧ logWriteTest size s i b = some t := by
  have hfits : s.Fits i b := fun c hc => by
    obtain rfl := Option.some.inj (hget.symm.trans hc)
    exact hfit
  obtain ⟨t, ht⟩ : ∃ t, logWriteTest size s i b = some t := by
    simp only [logWriteTest, hget]
    split
    · exact ⟨_, rfl⟩
    split <;> exact ⟨_, rfl⟩
  refine ⟨t, ?_, hfits, ht⟩
  simp only [OpStep, opStep, h.running, Option.isSome_none, Bool.false_eq_true, if_false,
    if_pos hfits, ht]

/-- Calls that use their whole allowance on new blocks drive the header to the limit. -/
theorem Orderly.overflows (h : Orderly s) (hne : s.calls ≠ []) (hres : size - 1 ≤ s.reserve) :
    ∃ bs u, OpAction.beginOp ∉ bs ∧ Run (OpStep size) s bs u ∧
      u.panic = some "too big a transaction" := by
  induction hm : s.load using Nat.strong_induction_on generalizing s with
  | _ m ih =>
    by_cases hfl : ∃ c ∈ s.calls, c.entered.isSome
    · -- finish a `log_write` under way
      obtain ⟨⟨logged, entered⟩, hmem, hent⟩ := hfl
      obtain ⟨b, rfl⟩ := Option.isSome_iff_exists.mp hent
      obtain ⟨i, hget⟩ := List.getElem?_of_mem hmem
      obtain ⟨t, hs⟩ : ∃ t, logWriteStore s i = some t := by
        simp only [logWriteStore, hget]
        exact ⟨_, rfl⟩
      have hstep : OpStep size s (.logWriteStore i) t := by
        simp only [OpStep, opStep, h.running, Option.isSome_none, Bool.false_eq_true, if_false, hs]
      obtain ⟨ht, -, hne', hr, hless⟩ := h.store hs
      obtain ⟨bs, u, hno, hrun, hp⟩ := ih _ (hm ▸ hless) ht hne' (hr ▸ hres) rfl
      exact ⟨_, u, by simpa using hno, .cons hstep hrun, hp⟩
    · have hidle : ∀ c ∈ s.calls, c.entered = none := fun c hc =>
        Option.not_isSome_iff_eq_none.mp fun he => hfl ⟨c, hc, he⟩
      have hcard : (s.charged.card : Int) = s.lh.n := by
        have heq : s.charged = s.lh.blocks.toFinset := by
          ext x
          rw [mem_charged, List.mem_toFinset]
          refine ⟨fun hx => hx.elim id ?_, .inl⟩
          rintro ⟨c, hc, hx⟩
          rw [hidle c hc] at hx
          cases hx
        have := h.n_nonneg
        rw [heq, List.toFinset_card_of_nodup h.nodup, blocks_length]
        omega
      by_cases hbig : s.lh.n ≥ logSize ∨ s.lh.n ≥ size - 1
      · -- the header is full: the next `log_write` of any call stops the machine
        obtain ⟨⟨logged, entered⟩, hmem⟩ := List.exists_mem_of_ne_nil _ hne
        obtain rfl : entered = none := hidle _ hmem
        obtain ⟨i, hget⟩ := List.getElem?_of_mem hmem
        obtain ⟨b, hb⟩ : ∃ b, b ∈ logged ∨ logged.length < maxOpBlocks := by
          cases logged with
          | nil => exact ⟨0, .inr (by decide)⟩
          | cons b _ => exact ⟨b, .inl List.mem_cons_self⟩
        obtain ⟨t, hstep, hfits, hs⟩ := opStep_test size h hget hb
        rcases h.enter hfits hs with ⟨-, hp⟩ | ⟨hroom, -⟩
        · exact ⟨_, _, by simp, .single hstep, hp⟩
        · exact absurd hbig hroom
      · -- some call has allowance left: it logs a block nobody has logged
        have hpos : (s.calls.map Call.remaining).sum ≠ 0 := by
          rw [OpState.reserve] at hres
          omega
        obtain ⟨r, hr, hr0⟩ := List.exists_mem_ne_zero_of_sum_ne_zero hpos
        obtain ⟨⟨logged, entered⟩, hmem, rfl⟩ := List.mem_map.mp hr
        obtain rfl : entered = none := hidle _ hmem
        obtain ⟨i, hget⟩ := List.getElem?_of_mem hmem
        obtain ⟨b, hb⟩ := Infinite.exists_notMem_finset s.charged
        obtain ⟨t, hstep, hfits, hs⟩ :=
          opStep_test size h hget (b := b) (.inr (Nat.lt_of_sub_ne_zero hr0))
        rcases h.enter hfits hs with ⟨hfull, -⟩ | ⟨-, ht, hne', -, hfresh⟩
        · exact absurd hfull hbig
        obtain ⟨hsame, hless⟩ := hfresh hb
        obtain ⟨bs, u, hno, hrun, hp⟩ := ih _ (hm ▸ hless) ht hne' (hsame ▸ hres) rfl
        exact ⟨_, u, by simpa using hno, .cons hstep hrun, hp⟩

/-- `log_write` has room in every run whose admissions are all reserved, and a single
admission that `begin_op` grants beyond that can be driven into the `panic`. -/
theorem log_write_room {as : List OpAction} {s : OpState}
    (hrun : Run (Guarded (OpStep logSize) (Reserved logSize)) OpState.init as s) :
    s.panic = none ∧
    ∀ t, OpStep logSize s .beginOp t → ¬ Reserved logSize s .beginOp →
      ∃ bs u, OpAction.beginOp ∉ bs ∧ Run (OpStep logSize) t bs u ∧
        u.panic = some "too big a transaction" := by
  have hroomy : Roomy logSize s :=
    hrun.invariant_of_guarded (fun _ _ _ h hok hs => h.step (Int.le_refl _) hok hs) (roomy_init _)
  have ho := hroomy.1
  refine ⟨ho.running, fun t hstep hnot => ?_⟩
  unfold OpStep opStep at hstep
  rw [if_neg (by simp [ho.running])] at hstep
  obtain ⟨ht, hr⟩ := ho.begin hstep
  obtain ⟨rfl, -⟩ := ho.toBooks.begin hstep
  refine ht.overflows (by simp) ?_
  rw [hr]
  have hover : ¬ ((s.reserve : Int) + maxOpBlocks ≤ logSize - 2) := fun hle => hnot fun _ => hle
  simp only [maxOpBlocks, logSize] at hover ⊢
  omega

/-- Two reserved admissions, and the third one that `begin_op` still grants. -/
theorem log_write_room_two :
    ∃ s t, Run (Guarded (OpStep logSize) (Reserved logSize)) OpState.init [.beginOp, .beginOp] s ∧
      s.panic = none ∧ OpStep logSize s .beginOp t ∧
      ∃ bs u, OpAction.beginOp ∉ bs ∧ Run (OpStep logSize) t bs u ∧
        u.panic = some "too big a transaction" := by
  let calls : List Call := [⟨[], none⟩, ⟨[], none⟩]
  let s : OpState := { OpState.init with outstanding := 2, calls := calls }
  let t : OpState := { OpState.init with outstanding := 3, calls := calls ++ [⟨[], none⟩] }
  have hrun : Run (Guarded (OpStep logSize) (Reserved logSize)) OpState.init
      [.beginOp, .beginOp] s :=
    .cons ⟨by decide, rfl⟩ (.single ⟨by decide, rfl⟩)
  have hstep : OpStep logSize s .beginOp t := rfl
  obtain ⟨hpanic, hover⟩ := log_write_room hrun
  exact ⟨s, t, hrun, hpanic, hstep, hover t hstep (by decide)⟩

/-- Three calls are admitted; the first two log ten blocks each and the third nine. -/
def threeCalls : List OpAction :=
  [.beginOp, .beginOp, .beginOp] ++
    (List.range 29).flatMap fun k => [.logWriteTest (k / 10) k, .logWriteStore (k / 10)]

/-- The tenth block of the third call stops the machine. -/
theorem log_write_panics :
    ∃ t, Run (OpStep logSize) OpState.init (threeCalls ++ [.logWriteTest 2 29]) t ∧
      t.panic = some "too big a transaction" := by
  exact Run.found id _ (by decide +kernel) fun _ _ h => h

end Xv6.Log
