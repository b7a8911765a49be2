import Xv6.Lib.Transition
import Xv6.Log.Reservation

/-! # Group commit

File-system calls join the transaction under way, and the call whose `end_op` brings
`log.outstanding` to zero commits it. Here a call may log any number of blocks, and the
commit is cut at its accesses to the header, so that other calls may come in between.

The fields `ended` and `commits` are history: no step reads them.
-/

namespace Xv6.Log

open Lib

variable {i : Nat}

/-! ## The machine -/

/-- Where `commit()` and the end of `end_op` stand. -/
inductive CommitPc
  | test
  | writeLog (tail : Nat)
  | writeHead
  | installTrans
  | clear
  | finish
  deriving DecidableEq

/-- What a commit has written: the blocks copied by `write_log` and the blocks of the header,
with the blocks of the calls that had ended since the commit before, and the calls under way. -/
structure CommitRecord where
  copied : List Nat
  listed : List Nat
  ended : List (List Nat)
  running : List Call

structure TxState extends OpState where
  commit : Option CommitPc
  copied : List Nat
  ended : List (List Nat)
  commits : List CommitRecord

def TxState.init : TxState := ⟨OpState.init, none, [], [], []⟩

namespace TxState

/-- A step of a call, which does not concern the commit. -/
def onCalls (s : TxState) (o : Option OpState) : Option TxState :=
  o.map fun o => { s with toOpState := o }

/-- A store past the end of `lh.block` has no defined effect, and no step. -/
def logWriteStore (s : TxState) (i : Nat) : Option TxState :=
  if ∀ c ∈ s.calls[i]?, ∀ b ∈ c.entered, absorbIndex s.lh b < logSize then
    s.onCalls (Log.logWriteStore s.toOpState i)
  else none

def endOp (s : TxState) (i : Nat) : Option TxState :=
  match s.calls[i]?, Log.endOp s.toOpState i with
  | some c, some o =>
    some { s with
      toOpState := o
      commit := if o.committing then some .test else none
      ended := s.ended ++ [c.logged] }
  | _, _ => none

/-- The next access of the commit to the header. -/
def commitStep (s : TxState) : Option TxState :=
  match s.commit with
  | none => none
  | some .test =>
    if s.lh.n > 0 then some { s with commit := some (.writeLog 0), copied := [] }
    else
      some { s with
        commit := some .finish
        ended := []
        commits := s.commits ++ [⟨[], [], s.ended, s.calls⟩] }
  | some (.writeLog tail) =>
    if (tail : Int) < s.lh.n then
      some { s with commit := some (.writeLog (tail + 1)), copied := s.copied ++ [s.lh.block tail] }
    else some { s with commit := some .writeHead }
  | some .writeHead =>
    some { s with
      commit := some .installTrans
      ended := []
      commits := s.commits ++ [⟨s.copied, s.lh.blocks, s.ended, s.calls⟩] }
  | some .installTrans => some { s with commit := some .clear }
  | some .clear => some { s with commit := some .finish, lh := { s.lh with n := 0 } }
  | some .finish => some { s with commit := none, committing := false }

def step (size : Int) (s : TxState) (a : OpAction) : Option TxState :=
  if s.panic.isSome then none
  else match a with
    | .beginOp => s.onCalls (beginOp s.toOpState)
    | .logWriteTest i b => s.onCalls (logWriteTest size s.toOpState i b)
    | .logWriteStore i => s.logWriteStore i
    | .endOp i => s.endOp i
    | .commit => s.commitStep

end TxState

def TxStep (size : Int) (s : TxState) (a : OpAction) (t : TxState) : Prop := s.step size a = some t

/-! ## The invariant -/

/-- A commit of all that the ended calls have logged, and of nothing else. -/
structure CommitRecord.Whole (c : CommitRecord) : Prop where
  copied : c.copied = c.listed
  running : c.running = []
  listed : ∀ b, b ∈ c.listed ↔ ∃ logged ∈ c.ended, b ∈ logged

/-- The header and the `log_write`s under way hold what the calls of this transaction have
logged. -/
def TxState.Accounts (s : TxState) : Prop :=
  ∀ b, b ∈ s.charged ↔ (∃ logged ∈ s.ended, b ∈ logged) ∨ ∃ c ∈ s.calls, b ∈ c.logged

def TxState.CommitOk (s : TxState) : Prop :=
  match s.commit with
  | none => s.committing = false ∧ s.Accounts
  | some .test => s.committing = true ∧ s.Accounts
  | some (.writeLog tail) => s.committing = true ∧ s.Accounts ∧ s.copied = s.lh.blocks.take tail
  | some .writeHead => s.committing = true ∧ s.Accounts ∧ s.copied = s.lh.blocks
  | some .installTrans => s.committing = true ∧ s.ended = []
  | some .clear => s.committing = true ∧ s.ended = []
  | some .finish => s.committing = true ∧ s.ended = [] ∧ s.lh.n = 0

structure TxState.Orderly (s : TxState) : Prop where
  books : Books s.toOpState
  commit_ok : s.CommitOk
  commits : ∀ c ∈ s.commits, c.Whole

variable {s t : TxState} {o : OpState}

theorem txInit_orderly : TxState.init.Orderly where
  books := books_init
  commit_ok := ⟨rfl, fun b => by simp [TxState.init, OpState.init, OpState.charged, LogHeader.blocks]⟩
  commits := fun c hc => absurd hc List.not_mem_nil

theorem TxState.Orderly.calm (h : s.Orderly) (hc : s.committing = false) :
    s.commit = none ∧ s.Accounts := by
  have hok := h.commit_ok
  unfold CommitOk at hok
  split at hok
  · rename_i hnone
    exact ⟨hnone, hok.2⟩
  all_goals exact absurd (hc.symm.trans hok.1) Bool.false_ne_true

/-- A state in which nothing is being committed is orderly if the books are. -/
theorem TxState.orderly_of_calm (hbooks : Books s.toOpState) (hc : s.committing = false)
    (hcommit : s.commit = none) (haccounts : s.Accounts) (hcommits : ∀ c ∈ s.commits, c.Whole) :
    s.Orderly where
  books := hbooks
  commit_ok := by
    unfold CommitOk
    rw [hcommit]
    exact ⟨hc, haccounts⟩
  commits := hcommits

/-! ## Steps of a call -/

/-- A step of a call keeps the order if it charges what the calls have logged. -/
theorem TxState.Orderly.onCalls (h : s.Orderly) (hc : s.committing = false) (hbooks : Books o)
    (hquiet : o.committing = false)
    (hcharged : s.Accounts → { s with toOpState := o }.Accounts) : { s with toOpState := o }.Orderly :=
  TxState.orderly_of_calm hbooks hquiet (h.calm hc).1 (hcharged (h.calm hc).2) h.commits

theorem beginOp_orderly (h : s.Orderly) (hs : beginOp s.toOpState = some o) :
    { s with toOpState := o }.Orderly ∧ o.panic = s.panic := by
  obtain ⟨rfl, hc, hbooks, hcharged⟩ := h.books.begin hs
  refine ⟨h.onCalls hc hbooks hc fun haccounts b => ?_, rfl⟩
  rw [hcharged, haccounts b]
  simp

theorem logWriteTest_orderly {size : Int} {b : Nat} (h : s.Orderly)
    (hs : logWriteTest size s.toOpState i b = some o) :
    { s with toOpState := o }.Orderly ∧
      (o.panic = s.panic ∨ o.panic = some "too big a transaction") := by
  obtain ⟨logged, hget, ⟨-, rfl⟩ | ⟨-, rfl, hbooks, hcharged⟩⟩ := h.books.enter hs
  · exact ⟨⟨⟨h.books.n_nonneg, h.books.nodup, h.books.outstanding_eq, h.books.quiet⟩,
      h.commit_ok, h.commits⟩, .inr rfl⟩
  have hc := (h.books.busy (ne_nil_of_getElem? hget)).1
  obtain ⟨pre, post, hcalls, hset, -⟩ := calls_split hget
  refine ⟨h.onCalls hc hbooks hc fun haccounts x => ?_, .inl rfl⟩
  rw [hcharged, Finset.mem_insert, haccounts x]
  rw [hset, hcalls]
  simp only [List.mem_append, List.mem_cons]
  grind

theorem logWriteStore_orderly (h : s.Orderly) (hstep : s.logWriteStore i = some t) :
    t.Orderly ∧ t.panic = s.panic := by
  unfold TxState.logWriteStore at hstep
  split at hstep
  · obtain ⟨o, hs, rfl⟩ := Option.map_eq_some_iff.mp hstep
    obtain ⟨logged, b, hget, rfl, hbooks, hcharged⟩ := h.books.store hs
    have hc := (h.books.busy (ne_nil_of_getElem? hget)).1
    obtain ⟨pre, post, hcalls, hset, -⟩ := calls_split hget
    refine ⟨h.onCalls hc hbooks hc fun haccounts x => ?_, rfl⟩
    rw [hcharged, haccounts x]
    rw [hset, hcalls]
    simp only [List.mem_append, List.mem_cons]
    grind
  · cases hstep

theorem endOp_orderly (h : s.Orderly) (hstep : s.endOp i = some t) :
    t.Orderly ∧ t.panic = s.panic := by
  unfold TxState.endOp at hstep
  split at hstep
  · rename_i c o hcall hs
    cases hstep
    obtain ⟨logged, hget, rfl, hbooks, hcharged⟩ := h.books.end hs
    obtain rfl := Option.some.inj (hget.symm.trans hcall)
    obtain ⟨-, haccounts⟩ := h.calm (h.books.busy (ne_nil_of_getElem? hget)).1
    obtain ⟨pre, post, hcalls, -, herase⟩ := calls_split hget
    refine ⟨⟨hbooks, ?_, h.commits⟩, rfl⟩
    have hbooked : ∀ b, b ∈ s.charged ↔
        (∃ l ∈ s.ended ++ [logged], b ∈ l) ∨ ∃ c ∈ s.calls.eraseIdx i, b ∈ c.logged := by
      intro b
      rw [haccounts b, herase, hcalls]
      simp only [List.mem_append, List.mem_cons]
      grind
    rw [← hcharged] at hbooked
    unfold TxState.CommitOk
    by_cases hzero : s.outstanding - 1 = 0
    · simp only [hzero, decide_true, if_true]
      exact ⟨trivial, hbooked⟩
    · simp only [hzero, decide_false, Bool.false_eq_true, if_false]
      exact ⟨trivial, hbooked⟩
  · cases hstep

/-! ## Steps of the commit -/

/-- With no call under way, what the header lists is what the ended calls have logged. -/
theorem TxState.Orderly.listed (h : s.Orderly) (hc : s.committing = true) (haccounts : s.Accounts)
    (b : Nat) : b ∈ s.lh.blocks ↔ ∃ logged ∈ s.ended, b ∈ logged := by
  have hb := haccounts b
  rw [mem_charged, h.books.quiet hc] at hb
  simpa using hb

theorem blocks_take_succ {lh : LogHeader} {tail : Nat} (h : (tail : Int) < lh.n) :
    lh.blocks.take (tail + 1) = lh.blocks.take tail ++ [lh.block tail] := by
  have hlt : tail < lh.n.toNat := by omega
  unfold LogHeader.blocks
  rw [List.take_add_one]
  simp [hlt]

theorem commitStep_orderly (h : s.Orderly) (hstep : s.commitStep = some t) :
    t.Orderly ∧ t.panic = s.panic := by
  have hok := h.commit_ok
  unfold TxState.CommitOk at hok
  unfold TxState.commitStep at hstep
  split at hstep
  · cases hstep
  · rename_i hpc
    rw [hpc] at hok
    obtain ⟨hc, haccounts⟩ := hok
    split at hstep
    · cases hstep
      exact ⟨⟨h.books, ⟨hc, haccounts, rfl⟩, h.commits⟩, rfl⟩
    cases hstep
    have hempty : s.lh.n = 0 := by
      have := h.books.n_nonneg
      omega
    refine ⟨⟨h.books, ⟨hc, rfl, hempty⟩, fun c hmem => ?_⟩, rfl⟩
    rcases List.mem_append.mp hmem with hmem | hmem
    · exact h.commits c hmem
    · rw [List.mem_singleton.mp hmem]
      refine ⟨rfl, h.books.quiet hc, fun b => ?_⟩
      rw [← h.listed hc haccounts b]
      simp [LogHeader.blocks, hempty]
  · rename_i tail hpc
    rw [hpc] at hok
    obtain ⟨hc, haccounts, hcopied⟩ := hok
    split at hstep
    · rename_i hlt
      cases hstep
      refine ⟨⟨h.books, ⟨hc, haccounts, ?_⟩, h.commits⟩, rfl⟩
      rw [hcopied, blocks_take_succ hlt]
    · cases hstep
      refine ⟨⟨h.books, ⟨hc, haccounts, ?_⟩, h.commits⟩, rfl⟩
      rw [hcopied, List.take_of_length_le]
      rw [blocks_length]
      omega
  · rename_i hpc
    rw [hpc] at hok
    obtain ⟨hc, haccounts, hcopied⟩ := hok
    cases hstep
    refine ⟨⟨h.books, ⟨hc, rfl⟩, fun c hmem => ?_⟩, rfl⟩
    rcases List.mem_append.mp hmem with hmem | hmem
    · exact h.commits c hmem
    · rw [List.mem_singleton.mp hmem]
      exact ⟨hcopied, h.books.quiet hc, h.listed hc haccounts⟩
  · rename_i hpc
    rw [hpc] at hok
    cases hstep
    exact ⟨⟨h.books, hok, h.commits⟩, rfl⟩
  · rename_i hpc
    rw [hpc] at hok
    cases hstep
    exact ⟨⟨⟨Int.le_refl 0, List.nodup_nil, h.books.outstanding_eq, h.books.quiet⟩, ⟨hok.1, hok.2, rfl⟩, h.commits⟩, rfl⟩
  · rename_i hpc
    rw [hpc] at hok
    obtain ⟨hc, hended, hn⟩ := hok
    cases hstep
    refine ⟨TxState.orderly_of_calm ⟨h.books.n_nonneg, h.books.nodup, h.books.outstanding_eq,
      fun _ => h.books.quiet hc⟩ rfl rfl (fun b => ?_) h.commits, rfl⟩
    simp [mem_charged, h.books.quiet hc, hended, LogHeader.blocks, hn]

/-! ## Runs -/

theorem txStep_orderly {size : Int} {a : OpAction} (h : s.Orderly) (hstep : TxStep size s a t) :
    t.Orderly ∧ (t.panic = none ∨ t.panic = some "too big a transaction") := by
  unfold TxStep TxState.step at hstep
  split at hstep
  · cases hstep
  rename_i hp
  have hnone : s.panic = none := by simpa using hp
  cases a with
  | beginOp =>
    obtain ⟨o, hs, rfl⟩ := Option.map_eq_some_iff.mp hstep
    obtain ⟨ht, hpanic⟩ := beginOp_orderly h hs
    exact ⟨ht, .inl (hpanic.trans hnone)⟩
  | logWriteTest i b =>
    obtain ⟨o, hs, rfl⟩ := Option.map_eq_some_iff.mp hstep
    obtain ⟨ht, hpanic⟩ := logWriteTest_orderly h hs
    exact ⟨ht, hpanic.imp_left fun hp => hp.trans hnone⟩
  | logWriteStore i =>
    obtain ⟨ht, hpanic⟩ := logWriteStore_orderly h hstep
    exact ⟨ht, .inl (hpanic.trans hnone)⟩
  | endOp i =>
    obtain ⟨ht, hpanic⟩ := endOp_orderly h hstep
    exact ⟨ht, .inl (hpanic.trans hnone)⟩
  | commit =>
    obtain ⟨ht, hpanic⟩ := commitStep_orderly h hstep
    exact ⟨ht, .inl (hpanic.trans hnone)⟩

/-- In every state of every run: no call is under way during a commit, the two panics about
the counters do not happen, the header lists no block twice, and every commit so far is
whole. -/
theorem operations_committed_whole {size : Int} {as : List OpAction} {s : TxState}
    (hrun : Run (TxStep size) .init as s) :
    (s.committing = true → s.outstanding = 0) ∧ s.panic ≠ some "log.committing" ∧
      s.panic ≠ some "log_write outside of trans" ∧ s.lh.blocks.Nodup ∧
      ∀ c ∈ s.commits, c.Whole := by
  have hinv : s.Orderly ∧ (s.panic = none ∨ s.panic = some "too big a transaction") :=
    hrun.invariant (fun _ _ _ h hstep => txStep_orderly h.1 hstep) ⟨txInit_orderly, .inl rfl⟩
  obtain ⟨h, hpanic⟩ := hinv
  refine ⟨fun hc => ?_, ?_, ?_, h.books.nodup, h.commits⟩
  · rw [h.books.outstanding_eq, h.books.quiet hc]
    rfl
  · rcases hpanic with hp | hp <;> rw [hp] <;> decide
  · rcases hpanic with hp | hp <;> rw [hp] <;> decide

/-- Two calls that overlap and log block `7`, one of them also block `9`. -/
theorem operations_committed_two : ∃ s, Run (TxStep logSize) .init
    [.beginOp, .beginOp, .logWriteTest 0 7, .logWriteTest 1 7, .logWriteStore 1, .logWriteStore 0,
      .logWriteTest 1 9, .endOp 0, .logWriteStore 0, .endOp 0, .commit, .commit, .commit, .commit,
      .commit] s ∧
    s.commits.map CommitRecord.listed = [[7, 9]] ∧ ∀ c ∈ s.commits, c.Whole := by
  exact Run.found id (fun s => s.commits.map CommitRecord.listed = [[7, 9]]) (by decide +kernel)
    fun s hrun hlisted => ⟨hlisted, (operations_committed_whole hrun).2.2.2.2⟩

end Xv6.Log
