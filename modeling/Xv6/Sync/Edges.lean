import Xv6.Sync.Faults

/-! # Waiters and mutex ids at the edges of their arrays

The inner loop counts down `num_waiters` in every round, so it goes only half the way, and it moves
entries from the start of the array whatever the place of the pid. A pid that is not at the start
stays in the array.

The calls on a mutex id check its range, and let `MUX_MAXNUM` through.
-/

namespace Xv6.Sync.Atomic

variable {x : Mutex} {pid : Int}

/-- What the inner loop does from round `j` on: half of the entries behind `i + j` are moved. -/
theorem shiftLoop_eq {i n j : Nat} (hn : (x.numWaiters - i - j).toNat / 2 ≤ n) :
    shiftLoop i n j x =
      { x with
        waiters := fun k => if j ≤ k ∧ k < j + (x.numWaiters - i - j).toNat / 2 then x.waiters (k + 1)
          else x.waiters k
        numWaiters := x.numWaiters - ((x.numWaiters - i - j).toNat / 2 : Nat) } := by
  induction n generalizing j x with
  | zero =>
    have hnone : (x.numWaiters - i - j).toNat / 2 = 0 := by omega
    rw [hnone]
    simp [shiftLoop, show ∀ k, ¬ (j ≤ k ∧ k < j) by omega]
  | succ n ih =>
    unfold shiftLoop
    split
    · have hhalf : (x.numWaiters - i - j).toNat / 2 = (x.numWaiters - 1 - i - (j + 1 : Nat)).toNat / 2 + 1 := by
        omega
      rw [ih (by dsimp only; omega)]
      dsimp only
      rw [hhalf]
      congr 1
      · funext k
        by_cases hk : k = j
        · subst hk
          rw [if_neg (by omega), if_pos (by omega), Function.update_self]
        · rw [Function.update_of_ne hk]
          by_cases hin : j + 1 ≤ k ∧ k < j + 1 + (x.numWaiters - 1 - i - (j + 1 : Nat)).toNat / 2
          · rw [if_pos hin, if_pos (by omega), Function.update_of_ne (by omega)]
          · rw [if_neg hin, if_neg (by omega)]
      · omega
    · have hnone : (x.numWaiters - i - j).toNat / 2 = 0 := by omega
      rw [hnone]
      simp [show ∀ k, ¬ (j ≤ k ∧ k < j) by omega]

theorem mem_queue {k : Nat} (hk : k < x.numWaiters) (h : x.waiters k = pid) : pid ∈ x.queue := by
  unfold Mutex.queue
  rw [← h]
  exact List.mem_map_of_mem (List.mem_range.mpr (by omega))

/-- Behind the first entry the loop changes nothing, or it leaves the pid in the queue. -/
theorem removeLoop_keeps (pid : Int) {n i : Nat} (hi : 1 ≤ i) :
    removeLoop pid n i x = x ∨ pid ∈ (removeLoop pid n i x).queue := by
  induction n generalizing i x with
  | zero => exact .inl rfl
  | succ n ih =>
    unfold removeLoop
    split
    · split
      · rename_i hpid
        rw [shiftLoop_eq (by omega)]
        rcases ih (i := i + 1) (Nat.le_add_left ..) with heq | hmem
        · rw [heq]
          by_cases hmoved : (x.numWaiters - i).toNat / 2 = 0
          · left
            have hnone : (x.numWaiters - i - (0 : Nat)).toNat / 2 = 0 := by omega
            rw [hnone]
            simp
          right
          by_cases hfar : i ≤ (x.numWaiters - i).toNat / 2
          · apply mem_queue (k := i - 1)
            · dsimp only
              omega
            · dsimp only
              rw [if_pos (by omega), Nat.sub_add_cancel hi]
              exact hpid
          · apply mem_queue (k := i)
            · dsimp only
              omega
            · dsimp only
              rw [if_neg (by omega)]
              exact hpid
        · exact .inr hmem
      · exact ih (Nat.le_add_left ..)
    · exact .inl rfl

/-- The queue after its first half has been moved over the first entry. -/
def halved (q : List Int) : List Int :=
  (q.drop 1).take (q.length / 2) ++ (q.drop (q.length / 2)).take (q.length % 2)

theorem length_queue : x.queue.length = x.numWaiters.toNat := by
  unfold Mutex.queue
  rw [List.length_map, List.length_range]

theorem queue_shifted (h : 0 < x.numWaiters) :
    (shiftLoop 0 x.numWaiters.toNat 0 x).queue = halved x.queue := by
  have hhalf : (x.numWaiters - (0 : Nat) - (0 : Nat)).toNat / 2 = x.numWaiters.toNat / 2 := by omega
  rw [shiftLoop_eq (by omega), hhalf]
  unfold halved
  rw [length_queue]
  unfold Mutex.queue
  apply List.ext_getElem
  · simp
    omega
  intro k hk hk'
  simp only [List.length_map, List.length_range] at hk
  rw [List.getElem_map, List.getElem_range]
  dsimp only
  by_cases hmoved : k < x.numWaiters.toNat / 2
  · rw [List.getElem_append_left (by simp; omega), if_pos (by omega)]
    simp
  · have hlast : k = x.numWaiters.toNat / 2 := by omega
    have hmin : min (x.numWaiters.toNat / 2) (x.numWaiters.toNat - 1) = k := by omega
    rw [List.getElem_append_right (by simp; omega), if_neg (by omega)]
    simp [hmin, hlast]

/-- The law of `wseq_remove`: all entries but the pid stay, in order, and are counted. -/
def RemovesWaiter (pid : Int) (x : Mutex) : Prop :=
  (wseqRemove pid x).queue = x.queue.filter (· ≠ pid) ∧
    (wseqRemove pid x).numWaiters = (x.queue.filter (· ≠ pid)).length

/-- `wseq_remove` keeps its law exactly where there is nothing to remove, and where the pid is at the
start of the queue and moving the first half over it happens to leave the others. -/
theorem wseqRemove_iff (pid : Int) (x : Mutex) (h : 0 ≤ x.numWaiters) :
    RemovesWaiter pid x ↔
      pid ∉ x.queue ∨ (x.queue.head? = some pid ∧ x.queue.filter (· ≠ pid) = halved x.queue) := by
  have hcount : RemovesWaiter pid x ↔ (wseqRemove pid x).queue = x.queue.filter (· ≠ pid) := by
    refine ⟨And.left, fun hq => ⟨hq, ?_⟩⟩
    have hnonneg : 0 ≤ (wseqRemove pid x).numWaiters := by
      unfold wseqRemove
      split
      · exact h
      · exact removeLoop_nonneg _ 0 h
    have hlen := congrArg List.length hq
    rw [length_queue] at hlen
    omega
  have hgone : pid ∉ x.queue.filter (· ≠ pid) := by simp
  rw [hcount]
  by_cases hmem : pid ∈ x.queue
  · have hpos : 0 < x.numWaiters := by
      have hlen := List.length_pos_of_mem hmem
      rw [length_queue] at hlen
      omega
    obtain ⟨n, hn⟩ : ∃ n, x.numWaiters.toNat = n + 1 := ⟨x.numWaiters.toNat - 1, by omega⟩
    have hhead : x.queue.head? = some (x.waiters 0) := by
      unfold Mutex.queue
      rw [hn, List.range_succ_eq_map]
      rfl
    have hrun : wseqRemove pid x = removeLoop pid n 1
        (if x.waiters 0 = pid then shiftLoop 0 x.numWaiters.toNat 0 x else x) := by
      unfold wseqRemove
      rw [if_neg (by omega), hn]
      simp only [removeLoop]
      rw [if_pos (by omega), hn]
    rw [hhead, hrun]
    by_cases hfirst : x.waiters 0 = pid
    · rw [if_pos hfirst, ← queue_shifted hpos]
      constructor
      · intro hq
        rcases removeLoop_keeps pid (n := n) (Nat.le_refl 1) with heq | hstays
        · rw [heq] at hq
          exact .inr ⟨congrArg some hfirst, hq.symm⟩
        · rw [hq] at hstays
          exact absurd hstays hgone
      · intro hcase
        obtain ⟨-, hq⟩ := hcase.resolve_left fun hc => hc hmem
        rw [removeLoop_of_notMem (hq ▸ hgone), hq]
    · rw [if_neg hfirst]
      constructor
      · intro hq
        rcases removeLoop_keeps pid (x := x) (n := n) (Nat.le_refl 1) with heq | hstays
        · rw [heq] at hq
          exact absurd (hq ▸ hmem) hgone
        · rw [hq] at hstays
          exact absurd hstays hgone
      · intro hcase
        obtain ⟨hhead, -⟩ := hcase.resolve_left fun hc => hc hmem
        exact absurd (Option.some.inj hhead) hfirst
  · rw [wseqRemove_of_notMem hmem]
    refine ⟨fun _ => .inl hmem, fun _ => ?_⟩
    rw [List.filter_eq_self.mpr]
    intro v hv
    refine decide_eq_true fun hc => ?_
    rw [hc] at hv
    exact hmem hv

/-- A mutex with the given waiters. -/
def waitedFor (waiters : List Int) : Mutex :=
  { locked := 0, used := 1, pid := -1, nameSpace := 0, waiters := fun i => waiters.getD i 0
    numWaiters := waiters.length }

/-- The first of two waiters is removed. -/
theorem wseqRemove_two : RemovesWaiter 5 (waitedFor [5, 7]) :=
  (wseqRemove_iff 5 (waitedFor [5, 7]) (by decide)).mpr (.inr (by decide))

/-- The only waiter stays. -/
theorem wseqRemove_only : (wseqRemove 5 (waitedFor [5])).queue = [5] ∧ ¬ RemovesWaiter 5 (waitedFor [5]) :=
  ⟨by decide, fun h => absurd h.1 (by decide)⟩

/-! ## The range of mutex ids -/

/-- The calls on a mutex id, with the error code for an id that is out of range. -/
def muxCalls : List ((Int → Call) × Int) :=
  [(.mutexDelete, -2), (.mutexLock, -1), (.mutexUnlock, -1), (.cvWait, -1), (.cvSignal, -1)]

/-- With the id of a slot the call stays in the table; any other id it refuses, and nothing
changes. -/
def RangeChecked (s : State) (p : Slot) (f : (Int → Call) × Int) (muxid : Int) : Prop :=
  if 0 ≤ muxid ∧ muxid < muxMaxNum then (call s p (f.1 muxid)).isSome = true
  else call s p (f.1 muxid) = some (some f.2, s)

theorem withMux_checked (s : State) (muxid err : Int) (f : Mux → Option Int × State) :
    (if 0 ≤ muxid ∧ muxid < muxMaxNum then (withMux muxid (some err, s) f).isSome = true
      else withMux muxid (some err, s) f = some (some err, s)) ↔ muxid ≠ muxMaxNum := by
  unfold withMux
  by_cases hin : 0 ≤ muxid ∧ muxid < muxMaxNum
  · rw [if_pos hin, if_neg (by omega), dif_pos (by omega)]
    exact ⟨fun _ => by omega, fun _ => rfl⟩
  rw [if_neg hin]
  by_cases hmax : muxid = muxMaxNum
  · rw [if_neg (by omega), dif_neg (by omega)]
    simp [hmax]
  · rw [if_pos (by omega)]
    exact ⟨fun _ => hmax, fun _ => rfl⟩

/-- The calls check their mutex id for every id but `MUX_MAXNUM`, which they let through. -/
theorem mutex_ids_checked_iff (s : State) (p : Slot) (muxid : Int) :
    (∀ f ∈ muxCalls, RangeChecked s p f muxid) ↔ muxid ≠ muxMaxNum := by
  simp only [muxCalls, List.forall_mem_cons, RangeChecked, call, withMux_checked]
  simp

/-- `mutex_delete(MUX_MAXNUM)` goes on behind the end of the table, where `mutex_table.lock` lies: it
holds that lock, so it finds its `pcs[0]` for `used` and its `cpu` for `locked`, neither of them `0`.
On such a slot it returns `-3`. -/
theorem mutexDelete_max :
    call boot 0 (.mutexDelete 16) = none ∧ ¬ RangeChecked boot 0 (.mutexDelete, -2) 16 ∧
      ∀ (s : State) (m : Mux), (s.mutexes m).used ≠ 0 → (s.mutexes m).locked ≠ 0 →
        mutexDelete s m = (some (-3), s) := by
  refine ⟨rfl, (by cases ·), fun s m hused hlocked => ?_⟩
  rw [mutexDelete, deleteMux, if_neg hused, if_pos hlocked]

end Xv6.Sync.Atomic
