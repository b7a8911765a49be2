import Xv6.Sync.FreeSlots
import Xv6.Sync.WaitQueue

/-! # What a fault leaves behind

The default branch of `trap` unlocks the mutexes listed in `proc_mutexes` of the faulting process.
In every reachable state a process in user mode is in no wait queue, so the wait queues need no
cleaning up, and the branch releases everything exactly when each mutex with the pid of the process
is in use and listed. A child keeps what its slot had in `proc_mutexes`, so without `exec` it need
not be.
-/

namespace Xv6.Sync.Atomic

open Lib

variable {x : Proc} {r : Option Int × State} {m : Mux} {is : List Mux}

/-! ## The wait queues in a reachable state -/

def Proc.Live (x : Proc) : Prop := x.state ≠ .unused ∧ x.state ≠ .zombie

def Proc.Waits (x : Proc) : Prop := ∃ m, x.place = .wait m ∧ (x.state = .sleeping ∨ x.killed = true)

/-- Every entry of `proc_mutexes` is empty or an index of the table. -/
def Proc.Listing (x : Proc) : Prop :=
  ∀ i : Mux, x.procMutexes i = -1 ∨ ∃ m : Mux, x.procMutexes i = m.val

structure Orderly (s : State) : Prop where
  next : 0 < s.nextpid
  pids : ∀ q, (s.procs q).state ≠ .unused → 0 < (s.procs q).pid ∧ (s.procs q).pid < s.nextpid
  distinct : ∀ q r, (s.procs q).state ≠ .unused → (s.procs r).state ≠ .unused →
    (s.procs q).pid = (s.procs r).pid → q = r
  nonneg : ∀ m, 0 ≤ (s.mutexes m).numWaiters
  old : ∀ m, ∀ v ∈ (s.mutexes m).queue, v < s.nextpid
  nodup : ∀ m, (s.mutexes m).queue.Nodup
  apart : ∀ m k v, v ∈ (s.mutexes m).queue → v ∈ (s.mutexes k).queue → m = k
  waiting : ∀ q m, (s.procs q).Live → (s.procs q).pid ∈ (s.mutexes m).queue → (s.procs q).Waits
  listing : ∀ q, (s.procs q).Listing

structure SameQueue (x y : Mutex) : Prop where
  numWaiters : y.numWaiters = x.numWaiters
  queue : y.queue = x.queue

theorem SameQueue.refl (x : Mutex) : SameQueue x x := ⟨rfl, rfl⟩

structure Continues (x y : Proc) : Prop where
  pid : y.pid = x.pid
  unused : y.state = .unused ↔ x.state = .unused
  live : y.Live → x.Live
  waits : y.Live → x.Waits → y.Waits
  listing : x.Listing → y.Listing

theorem Continues.refl (x : Proc) : Continues x x := ⟨rfl, Iff.rfl, id, fun _ => id, id⟩

theorem Continues.trans {y z : Proc} (h : Continues x y) (h' : Continues y z) : Continues x z :=
  ⟨h'.pid.trans h.pid, h'.unused.trans h.unused, fun hz => h.live (h'.live hz),
    fun hz hx => h'.waits hz (h.waits (h'.live hz) hx), fun hx => h'.listing (h.listing hx)⟩

section Changes

variable {s t : State} {p : Slot} {m : Mux} {f : Proc → Proc}

theorem Orderly.congr (h : Orderly s) (hqueue : ∀ m, SameQueue (s.mutexes m) (t.mutexes m))
    (hprocs : ∀ q, Continues (s.procs q) (t.procs q)) (hnext : t.nextpid = s.nextpid) : Orderly t where
  next := by
    rw [hnext]
    exact h.next
  pids := fun q hq => by
    rw [(hprocs q).pid, hnext]
    exact h.pids q fun hc => hq ((hprocs q).unused.mpr hc)
  distinct := fun q r hq hr heq => by
    rw [(hprocs q).pid, (hprocs r).pid] at heq
    exact h.distinct q r (fun hc => hq ((hprocs q).unused.mpr hc))
      (fun hc => hr ((hprocs r).unused.mpr hc)) heq
  nonneg := fun m => (hqueue m).numWaiters ▸ h.nonneg m
  old := fun m => by
    rw [(hqueue m).queue, hnext]
    exact h.old m
  nodup := fun m => (hqueue m).queue ▸ h.nodup m
  apart := fun m k => by
    rw [(hqueue m).queue, (hqueue k).queue]
    exact h.apart m k
  waiting := fun q m hlive hmem => by
    rw [(hprocs q).pid, (hqueue m).queue] at hmem
    exact (hprocs q).waits hlive (h.waiting q m ((hprocs q).live hlive) hmem)
  listing := fun q => (hprocs q).listing (h.listing q)

theorem Orderly.mutex (h : Orderly s) {g : Mutex → Mutex}
    (hqueue : SameQueue (s.mutexes m) (g (s.mutexes m))) : Orderly (s.mutex m g) := by
  refine h.congr (fun k => ?_) (fun q => Continues.refl _) rfl
  have := SameQueue.refl (s.mutexes k)
  grind

/-- A process changes that is in no queue, or goes on waiting. -/
theorem Orderly.update (h : Orderly s) (hused : (f (s.procs p)).state ≠ .unused →
      (s.procs p).state ≠ .unused ∧ (f (s.procs p)).pid = (s.procs p).pid)
    (hwaits : (f (s.procs p)).Live → ∀ m, (s.procs p).pid ∈ (s.mutexes m).queue → (f (s.procs p)).Waits)
    (hlisting : (s.procs p).Listing → (f (s.procs p)).Listing) : Orderly (s.update p f) where
  next := h.next
  pids := fun q hq => by
    have hpids : _ → _ ∧ _ < (s.update p f).nextpid := h.pids q
    grind
  distinct := fun q r => by
    have := h.distinct q r
    grind
  nonneg := h.nonneg
  old := h.old
  nodup := h.nodup
  apart := h.apart
  waiting := fun q m hlive hmem => by
    have hwaiting := h.waiting q m
    have hused := hlive.1
    grind
  listing := fun q => by
    have := h.listing q
    grind

theorem Orderly.unqueued (h : Orderly s) (hlive : (s.procs p).Live) (hwaits : ¬ (s.procs p).Waits)
    (m : Mux) : (s.procs p).pid ∉ (s.mutexes m).queue :=
  fun hmem => hwaits (h.waiting p m hlive hmem)

theorem not_waits_of_place (h : ∀ m, x.place ≠ .wait m) : ¬ x.Waits := by
  rintro ⟨m, hm, -⟩
  exact h m hm

theorem Proc.InUser.live (h : x.InUser) : x.Live := by
  refine ⟨fun hc => ?_, fun hc => ?_⟩
  · rw [h.1] at hc
    cases hc
  · rw [h.1] at hc
    cases hc

theorem Proc.InUser.not_waits (h : x.InUser) : ¬ x.Waits :=
  not_waits_of_place fun m hm => by
    rw [h.2] at hm
    cases hm

theorem listing_replaceFirst {a : Mux → Int} {old new : Int}
    (h : ∀ i, a i = -1 ∨ ∃ m : Mux, a i = m.val) (hnew : new = -1 ∨ ∃ m : Mux, new = m.val)
    (i : Mux) : replaceFirst old new a i = -1 ∨ ∃ m : Mux, replaceFirst old new a i = m.val := by
  unfold replaceFirst
  cases (List.finRange muxMaxNum).find? fun i => a i == old with
  | none => exact h i
  | some j =>
    dsimp only
    by_cases hij : i = j
    · rw [hij, Function.update_self]
      exact hnew
    · rw [Function.update_of_ne hij]
      exact h i

end Changes

/-! ## The calls -/

section Calls

variable {s : State} {p : Slot} {m : Mux} {pid : Int}

theorem Orderly.proc (h : Orderly s) {f : Proc → Proc} (hf : Continues (s.procs p) (f (s.procs p))) :
    Orderly (s.update p f) := by
  refine h.congr (fun m => SameQueue.refl _) (fun q => ?_) rfl
  have := Continues.refl (s.procs q)
  grind

theorem Orderly.create (h : Orderly s) : Orderly (mutexCreate s p).2 := by
  unfold mutexCreate
  split
  · exact h
  · dsimp only
    exact h.mutex ⟨rfl, rfl⟩

theorem Orderly.delete (h : Orderly s) : Orderly (mutexDelete s m).2 := by
  unfold mutexDelete
  rcases deleteMux_cases s.mutexes m with ⟨-, hsame⟩ | ⟨-, -, -, hdelete⟩
  · rw [hsame]
    exact h
  · rw [hdelete]
    exact h.mutex (g := fun x => { x with locked := 0, used := 0 }) ⟨rfl, rfl⟩

theorem Orderly.take (h : Orderly s) : Orderly (s.take p m) := by
  have hmutex : Orderly (s.mutex m fun x => { x with locked := 1, pid := (s.procs p).pid }) :=
    h.mutex ⟨rfl, rfl⟩
  refine hmutex.proc ⟨rfl, Iff.rfl, id, fun _ => id, fun hl => ?_⟩
  exact listing_replaceFirst hl (.inr ⟨m, rfl⟩)

theorem Orderly.lockLoop (h : Orderly s) (hused : (s.procs p).state ≠ .unused)
    (hout : ∀ m, (s.procs p).pid ∉ (s.mutexes m).queue) : Orderly (lockLoop s p m).2 := by
  unfold Atomic.lockLoop
  split
  · dsimp only
    exact h.update (fun _ => ⟨hused, rfl⟩) (fun _ k hk => absurd hk (hout k)) id
  · exact h.take

theorem Orderly.lock (h : Orderly s) (hused : (s.procs p).state ≠ .unused)
    (hout : ∀ m, (s.procs p).pid ∉ (s.mutexes m).queue) : Orderly (mutexLock s p m).2 := by
  unfold mutexLock
  split
  · exact h
  split
  · exact h
  split
  · exact h
  · exact h.lockLoop hused hout

theorem wakeup_continues (s : State) (m : Mux) (q : Slot) :
    Continues (s.procs q) ((s.wakeup m).procs q) := by
  unfold State.wakeup
  dsimp only
  split
  · rename_i hsleeps
    refine ⟨rfl, ?_, fun _ => ⟨fun hc => ?_, fun hc => ?_⟩, fun _ hx => ?_, id⟩
    · rw [hsleeps.1]
      exact ⟨nofun, nofun⟩
    · rw [hsleeps.1] at hc
      cases hc
    · rw [hsleeps.1] at hc
      cases hc
    · obtain ⟨k, hk, -⟩ := hx
      rw [hsleeps.2] at hk
      cases hk
  · exact Continues.refl _

theorem unlock_continues (s : State) (p : Slot) (m : Mux) (q : Slot) :
    Continues (s.procs q) ((mutexUnlock s p m).2.procs q) := by
  unfold mutexUnlock
  split
  · exact Continues.refl _
  split
  · exact Continues.refl _
  refine Continues.trans ?_ (wakeup_continues _ m q)
  simp only [State.mutex, State.update]
  by_cases hqp : q = p
  · rw [hqp, Function.update_self]
    exact ⟨rfl, Iff.rfl, id, fun _ => id, fun hl => listing_replaceFirst hl (.inl rfl)⟩
  · rw [Function.update_of_ne hqp]
    exact Continues.refl _

theorem unlock_mutexes {k : Mux} :
    (mutexUnlock s p m).2.mutexes k =
      if k = m ∧ (s.mutexes m).used ≠ 0 ∧ (s.mutexes m).pid = (s.procs p).pid then
        { s.mutexes k with locked := 0, pid := -1 }
      else s.mutexes k := by
  have hwake : ∀ t : State, (t.wakeup m).mutexes = t.mutexes := fun _ => rfl
  unfold mutexUnlock
  split
  · grind
  split
  · grind
  · rw [hwake, mutexes_mutex]
    grind

theorem Orderly.unlock (h : Orderly s) : Orderly (mutexUnlock s p m).2 := by
  refine h.congr (fun k => ?_) (unlock_continues s p m) ?_
  · rw [unlock_mutexes]
    split
    · exact ⟨rfl, rfl⟩
    · exact SameQueue.refl _
  unfold mutexUnlock
  split
  · rfl
  split
  · rfl
  · rfl

theorem Orderly.enqueue (h : Orderly s) {v : Int} (hfresh : ∀ k, v ∉ (s.mutexes k).queue)
    (hold : v < s.nextpid) (hwaits : ∀ q, (s.procs q).Live → (s.procs q).pid = v → (s.procs q).Waits) :
    Orderly (s.mutex m fun x =>
      { x with
        waiters := Function.update x.waiters x.numWaiters.toNat v
        numWaiters := x.numWaiters + 1 }) := by
  have hnonneg := h.nonneg m
  have hat := queue_enqueue hnonneg v
  generalize hg : (fun x : Mutex =>
    { x with
      waiters := Function.update x.waiters x.numWaiters.toNat v
      numWaiters := x.numWaiters + 1 }) = g
  have hself : (g (s.mutexes m)).queue = (s.mutexes m).queue ++ [v] := by
    rw [← hg]
    exact hat
  have hnum : (g (s.mutexes m)).numWaiters = (s.mutexes m).numWaiters + 1 := by rw [← hg]
  have hqueue : ∀ k, ((s.mutex m g).mutexes k).queue =
      if k = m then (s.mutexes m).queue ++ [v] else (s.mutexes k).queue := by grind
  refine ⟨h.next, h.pids, h.distinct, fun k => ?_, fun k w hw => ?_, fun k => ?_,
    fun k l w hk hl => ?_, fun q k hlive hq => ?_, h.listing⟩
  · have := h.nonneg k
    grind
  · have := h.old k w
    show w < s.nextpid
    grind
  · have := h.nodup k
    grind
  · have := h.apart k l w
    grind
  · have := h.waiting q k hlive
    grind

theorem Orderly.wait (h : Orderly s) (hused : (s.procs p).state ≠ .unused)
    (hout : ∀ m, (s.procs p).pid ∉ (s.mutexes m).queue) : Orderly (cvWait s p m).2 := by
  unfold cvWait
  split
  · exact h
  split
  · exact h
  split
  · exact h
  have hasleep : Orderly (s.update p fun x => { x with state := .sleeping, place := .wait m }) :=
    h.update (fun _ => ⟨hused, rfl⟩) (fun _ k hk => absurd hk (hout k)) id
  have hwaits : ∀ q, ((s.update p fun x => { x with state := .sleeping, place := .wait m }).procs q).Live →
      ((s.update p fun x => { x with state := .sleeping, place := .wait m }).procs q).pid =
        (s.procs p).pid →
      ((s.update p fun x => { x with state := .sleeping, place := .wait m }).procs q).Waits := by
    intro q hlive heq
    by_cases hqp : q = p
    · subst hqp
      rw [update_self]
      exact ⟨m, rfl, .inl rfl⟩
    · rw [update_of_ne _ _ hqp] at hlive heq
      exact absurd (h.distinct q p hlive.1 hused heq) hqp
  exact hasleep.enqueue hout (h.pids p hused).2 hwaits

theorem Orderly.shift (h : Orderly s) (hpos : 0 < (s.mutexes m).numWaiters) :
    Orderly (s.mutex m shiftWaiters) ∧
      ∀ k, (s.mutexes m).waiters 0 ∉ ((s.mutex m shiftWaiters).mutexes k).queue := by
  have hfirst := queue_shift hpos
  have hqueue : ∀ k, ((s.mutex m shiftWaiters).mutexes k).queue =
      if k = m then (shiftWaiters (s.mutexes m)).queue else (s.mutexes k).queue := by grind
  have hsub : ∀ k w, w ∈ ((s.mutex m shiftWaiters).mutexes k).queue → w ∈ (s.mutexes k).queue := by grind
  refine ⟨⟨h.next, h.pids, h.distinct, fun k => ?_, fun k w hw => h.old k w (hsub k w hw), fun k => ?_,
    fun k l w hk hl => h.apart k l w (hsub k w hk) (hsub l w hl),
    fun q k hlive hq => h.waiting q k hlive (hsub k _ hq), h.listing⟩, fun k hk => ?_⟩
  · have := h.nonneg k
    grind [shiftWaiters]
  · have := h.nodup k
    grind
  · have := h.nodup m
    have := h.apart k m ((s.mutexes m).waiters 0) (hsub k _ hk)
    grind

theorem Orderly.signal (h : Orderly s) : Orderly (cvSignal s m).2 := by
  unfold cvSignal
  split
  · exact h
  rename_i hsome
  obtain ⟨hshift, hout⟩ := h.shift (lt_of_le_of_ne (h.nonneg m) (Ne.symm hsome))
  dsimp only
  unfold State.wakePid
  split
  · rename_i q hq
    have hfound := List.find?_some hq
    rw [Bool.and_eq_true, beq_iff_eq, beq_iff_eq] at hfound
    refine hshift.update (fun _ => ⟨fun hc => ?_, rfl⟩) (fun _ k hk => ?_) id
    · rw [hfound.2] at hc
      cases hc
    · rw [hfound.1] at hk
      exact absurd hk (hout k)
  · exact hshift

theorem Orderly.kill (h : Orderly s) : Orderly (kill s pid).2 := by
  unfold Atomic.kill
  split
  · rename_i q _
    dsimp only
    refine h.proc ?_
    have hstate : ∀ x : ProcState, x ≠ .sleeping → x ≠ .runnable →
        ((if (s.procs q).state = .sleeping then ProcState.runnable else (s.procs q).state) = x ↔
          (s.procs q).state = x) := by
      intro x hs hr
      split
      · rename_i hsleeps
        rw [hsleeps]
        exact ⟨fun hc => absurd hc.symm hr, fun hc => absurd hc.symm hs⟩
      · exact Iff.rfl
    refine ⟨rfl, hstate .unused nofun nofun, fun hy => ⟨fun hc => ?_, fun hc => ?_⟩, fun _ hx => ?_, id⟩
    · exact hy.1 ((hstate .unused nofun nofun).mpr hc)
    · exact hy.2 ((hstate .zombie nofun nofun).mpr hc)
    · obtain ⟨k, hk, -⟩ := hx
      exact ⟨k, hk, .inr rfl⟩
  · exact h

/-- The way back of a process that is in no queue, or has been killed. -/
theorem Orderly.back (h : Orderly r.2) (hused : (r.2.procs p).state ≠ .unused)
    (hout : r.1 ≠ none → (r.2.procs p).killed = false → ∀ m, (r.2.procs p).pid ∉ (r.2.mutexes m).queue) :
    Orderly (back p r) := by
  obtain ⟨r, t⟩ := r
  cases r with
  | none => exact h
  | some r =>
    unfold Atomic.back
    dsimp only at *
    split
    · exact Orderly.update h (fun _ => ⟨hused, rfl⟩) (fun hlive => absurd rfl hlive.2) id
    · rename_i hkilled
      exact Orderly.update h (fun _ => ⟨hused, rfl⟩)
        (fun _ k hk => absurd hk (hout nofun (Bool.not_eq_true _ ▸ hkilled) k)) id

end Calls

/-! ## The loop of `trap` -/

section Loop

variable {s t : State} {p : Slot} {pid : Int}

theorem removeLoop_of_notMem {x : Mutex} (h : pid ∉ x.queue) (n i : Nat) : removeLoop pid n i x = x := by
  induction n generalizing i with
  | zero => rfl
  | succ n ih =>
    unfold removeLoop
    split
    · have hne : x.waiters i ≠ pid := by
        intro heq
        refine h ?_
        unfold Mutex.queue
        rw [← heq]
        exact List.mem_map_of_mem (List.mem_range.mpr (by omega))
      rw [if_neg hne]
      exact ih (i + 1)
    · rfl

theorem wseqRemove_of_notMem {x : Mutex} (h : pid ∉ x.queue) : wseqRemove pid x = x := by
  unfold wseqRemove
  split
  · rfl
  · exact removeLoop_of_notMem h _ 0

theorem mutex_eq_self {g : Mutex → Mutex} (h : g (s.mutexes m) = s.mutexes m) : s.mutex m g = s := by
  unfold State.mutex
  rw [h, Function.update_eq_self]

theorem unlock_entries (s : State) (p q : Slot) (m : Mux) :
    ((mutexUnlock s p m).2.procs q).procMutexes = (s.procs q).procMutexes ∨
      (q = p ∧ ((mutexUnlock s p m).2.procs q).procMutexes =
        replaceFirst m.val (-1) (s.procs q).procMutexes) := by
  unfold mutexUnlock
  split
  · exact .inl rfl
  split
  · exact .inl rfl
  have hwake : ∀ t : State, ((t.wakeup m).procs q).procMutexes = (t.procs q).procMutexes := by
    intro t
    unfold State.wakeup
    dsimp only
    split
    · rfl
    · rfl
  rw [hwake]
  simp only [State.mutex, State.update]
  by_cases hqp : q = p
  · subst hqp
    rw [Function.update_self]
    exact .inr ⟨rfl, rfl⟩
  · rw [Function.update_of_ne hqp]
    exact .inl rfl

/-- The mutexes of `p` that an entry other than those of `is` lists. -/
def Frees (s : State) (p : Slot) (is : List Mux) (m : Mux) : Prop :=
  (s.mutexes m).used ≠ 0 ∧ (s.mutexes m).pid = (s.procs p).pid ∧
    ∃ i, i ∉ is ∧ (s.procs p).procMutexes i = m.val

instance (s : State) (p : Slot) (is : List Mux) (m : Mux) : Decidable (Frees s p is m) :=
  inferInstanceAs (Decidable (_ ∧ _ ∧ ∃ _, _ ∧ _))

theorem frees_cons {i : Mux} (hi : i ∉ is) (m : Mux) :
    Frees s p is m ↔ Frees s p (i :: is) m ∨ ((s.mutexes m).used ≠ 0 ∧
      (s.mutexes m).pid = (s.procs p).pid ∧ (s.procs p).procMutexes i = m.val) := by
  unfold Frees
  grind

structure Releasing (s : State) (p : Slot) (is : List Mux) (t : State) : Prop where
  mutexes : ∀ m, t.mutexes m =
    if Frees s p is m then { s.mutexes m with locked := 0, pid := -1 } else s.mutexes m
  entries : ∀ i ∈ is, (t.procs p).procMutexes i = (s.procs p).procMutexes i
  procs : ∀ q, Continues (s.procs q) (t.procs q)
  others : ∀ q, q ≠ p → (t.procs q).procMutexes = (s.procs q).procMutexes
  nextpid : t.nextpid = s.nextpid

theorem Releasing.queue (h : Releasing s p is t) (m : Mux) : SameQueue (s.mutexes m) (t.mutexes m) := by
  rw [h.mutexes m]
  split
  · exact ⟨rfl, rfl⟩
  · exact SameQueue.refl _

theorem Releasing.entry {i : Mux} (h : Releasing s p (i :: is) t) (hafter : ∀ j ∈ is, i < j)
    (hlisting : (s.procs p).Listing) (hpid : (s.procs p).pid ≠ -1)
    (hout : ∀ m, (s.procs p).pid ∉ (s.mutexes m).queue) :
    ∃ t', releaseEntry p t i = some t' ∧ Releasing s p is t' := by
  have hi : i ∉ is := fun hc => lt_irrefl i (hafter i hc)
  have hentry := h.entries i List.mem_cons_self
  have hsame := (h.procs p).pid
  unfold releaseEntry
  rcases hlisting i with hempty | ⟨k, hk⟩
  · refine ⟨t, if_pos (hentry.trans hempty), fun m => ?_, fun j hj => h.entries j (List.mem_cons_of_mem _ hj),
      h.procs, h.others, h.nextpid⟩
    have hiff : Frees s p is m ↔ Frees s p (i :: is) m := by
      rw [frees_cons hi m]
      refine or_iff_left fun hc => ?_
      rw [hempty] at hc
      omega
    rw [h.mutexes m]
    exact if_congr hiff.symm rfl rfl
  · rw [hentry, hk, if_neg (by omega), withMux_val]
    have hqueue : (s.procs p).pid ∉ ((mutexUnlock t p k).2.mutexes i).queue := by
      have hunlock : ((mutexUnlock t p k).2.mutexes i).queue = (t.mutexes i).queue := by
        rw [unlock_mutexes]
        split
        · rfl
        · rfl
      rw [hunlock, (h.queue i).queue]
      exact hout i
    rw [← hsame] at hqueue
    refine ⟨(mutexUnlock t p k).2, ?_, fun m => ?_, fun j hj => ?_, fun q => ?_, fun q hq => ?_, ?_⟩
    · rw [Option.map_some]
      exact congrArg some (mutex_eq_self (wseqRemove_of_notMem hqueue))
    · -- released now, or by an entry before
      rw [unlock_mutexes, hsame, h.mutexes m]
      have hcons := frees_cons (s := s) (p := p) hi m
      have hself := h.mutexes k
      by_cases hmk : m = k
      · subst hmk
        grind
      · have hval : (s.procs p).procMutexes i ≠ m.val := fun hc => hmk (Fin.ext (by omega))
        grind
    · rw [← h.entries j (List.mem_cons_of_mem _ hj)]
      rcases unlock_entries t p p k with heq | ⟨-, heq⟩
      · rw [heq]
      · rw [heq]
        exact replaceFirst_after (hentry.trans hk) (hafter j hj)
    · exact (h.procs q).trans (unlock_continues t p k q)
    · rcases unlock_entries t p q k with heq | ⟨hqp, -⟩
      · rw [heq, h.others q hq]
      · exact absurd hqp hq
    · rw [← h.nextpid]
      unfold mutexUnlock
      split
      · rfl
      split
      · rfl
      · rfl

theorem Releasing.loop (h : Releasing s p is t) (hsorted : is.Pairwise (· < ·))
    (hlisting : (s.procs p).Listing) (hpid : (s.procs p).pid ≠ -1)
    (hout : ∀ m, (s.procs p).pid ∉ (s.mutexes m).queue) :
    ∃ t', is.foldlM (releaseEntry p) t = some t' ∧ Releasing s p [] t' := by
  induction is generalizing t with
  | nil => exact ⟨t, rfl, h⟩
  | cons i is ih =>
    rw [List.pairwise_cons] at hsorted
    obtain ⟨t1, hfirst, h1⟩ := h.entry hsorted.1 hlisting hpid hout
    obtain ⟨t', hrest, h'⟩ := ih h1 hsorted.2
    refine ⟨t', ?_, h'⟩
    rw [List.foldlM_cons, hfirst]
    exact hrest

/-- The default branch of `trap` for a process in no wait queue. -/
theorem releaseMutexes_done (hlisting : (s.procs p).Listing) (hpid : (s.procs p).pid ≠ -1)
    (hout : ∀ m, (s.procs p).pid ∉ (s.mutexes m).queue) :
    ∃ t, releaseMutexes s p = some t ∧ Releasing s p [] t := by
  have hstart : Releasing s p (List.finRange muxMaxNum)
      (s.update p fun x => { x with killed := true }) := by
    refine ⟨fun m => ?_, fun i _ => ?_, fun q => ?_, fun q hq => ?_, rfl⟩
    · rw [if_neg]
      · rfl
      · rintro ⟨-, -, i, hi, -⟩
        exact hi (List.mem_finRange i)
    · rw [update_self]
    · by_cases hqp : q = p
      · subst hqp
        rw [update_self]
        refine ⟨rfl, Iff.rfl, id, fun _ hx => ?_, id⟩
        obtain ⟨k, hk, -⟩ := hx
        exact ⟨k, hk, .inr rfl⟩
      · rw [update_of_ne _ _ hqp]
        exact Continues.refl _
    · rw [update_of_ne _ _ hq]
  exact hstart.loop (List.pairwise_lt_finRange muxMaxNum) hlisting hpid hout

end Loop

/-! ## Runs -/

section Runs

variable {s t : State} {p : Slot}

theorem take_proc : (s.take p m).procs p =
    { s.procs p with procMutexes := replaceFirst (-1) m.val (s.procs p).procMutexes } :=
  update_self ..

theorem lockLoop_stays (huser : (s.procs p).InUser) (hr : (lockLoop s p m).1 ≠ none) :
    ((lockLoop s p m).2.procs p).InUser := by
  unfold lockLoop at *
  split
  · rename_i hlocked
    rw [if_pos hlocked] at hr
    exact absurd rfl hr
  · rw [take_proc]
    exact huser

theorem call_stays {c : Call} (huser : (s.procs p).InUser) (hcall : call s p c = some r) (hr : r.1 ≠ none) :
    (r.2.procs p).InUser := by
  have hawake : (s.procs p).state ≠ .sleeping := by
    rw [huser.1]
    nofun
  cases did_of_call hcall with
  | refused | delete m => exact huser
  | create =>
    unfold mutexCreate
    split
    · exact huser
    · exact huser
  | lock m =>
    have := lockLoop_stays (m := m) huser
    unfold mutexLock at *
    grind
  | unlock m =>
    unfold mutexUnlock
    split
    · exact huser
    split
    · exact huser
    · simp only [State.wakeup, State.mutex, State.update, Function.update_self]
      rw [if_neg fun hc => hawake hc.1]
      exact huser
  | wait m =>
    unfold cvWait at *
    grind
  | signal m =>
    unfold cvSignal State.wakePid
    split
    · exact huser
    split
    · rename_i q hq
      grind
    · exact huser
  | kill pid =>
    unfold kill
    grind [Proc.InUser]

theorem Orderly.called {c : Call} (h : Orderly s) (huser : (s.procs p).InUser)
    (hcall : Atomic.call s p c = some r) : Orderly r.2 := by
  have hused := huser.live.1
  have hout := h.unqueued huser.live huser.not_waits
  cases did_of_call hcall with
  | refused => exact h
  | create => exact h.create
  | delete m => exact h.delete
  | lock m => exact h.lock hused hout
  | unlock m => exact h.unlock
  | wait m => exact h.wait hused hout
  | signal m => exact h.signal
  | kill pid => exact h.kill

theorem Orderly.take_back (h : Orderly s) (hlive : (s.procs p).Live)
    (hwaits : (s.procs p).killed = false → ¬ (s.procs p).Waits) :
    Orderly (Atomic.back p (some 1, s.take p m)) := by
  have htake : Orderly (s.take p m) := h.take
  refine Orderly.back htake ?_ fun _ hkilled => ?_
  · rw [take_proc]
    exact hlive.1
  rw [take_proc] at hkilled
  refine htake.unqueued ?_ ?_
  · rw [take_proc]
    exact hlive
  · rw [take_proc]
    exact hwaits hkilled

theorem Orderly.goOn (h : Orderly s) (hstate : (s.procs p).state = .runnable)
    (hgo : Atomic.goOn s p = some r) : Orderly (Atomic.back p r) := by
  have hlive : (s.procs p).Live := by
    unfold Proc.Live
    rw [hstate]
    exact ⟨nofun, nofun⟩
  unfold Atomic.goOn at hgo
  split at hgo
  · cases hgo
  · rename_i m hplace
    have hwaits : ¬ (s.procs p).Waits := not_waits_of_place fun k hk => by
      rw [hplace] at hk
      cases hk
    cases hgo
    unfold Atomic.lockLoop
    split
    · unfold Atomic.back
      exact h.update (fun _ => ⟨hlive.1, rfl⟩) (fun _ k hk => absurd hk (h.unqueued hlive hwaits k)) id
    · exact h.take_back hlive fun _ => hwaits
  · cases hgo
    refine h.take_back hlive fun hkilled hwaits => ?_
    obtain ⟨-, -, hsleeps | hc⟩ := hwaits
    · rw [hstate] at hsleeps
      cases hsleeps
    · rw [hkilled] at hc
      cases hc

theorem Orderly.init (h : Orderly s) : Orderly { s with mutexes := mutexInit } where
  next := h.next
  pids := h.pids
  distinct := h.distinct
  nonneg := fun _ => le_refl 0
  old := fun _ _ hv => nomatch hv
  nodup := fun _ => List.nodup_nil
  apart := fun _ _ _ hv => nomatch hv
  waiting := fun _ _ _ hv => nomatch hv
  listing := h.listing

theorem Orderly.fork (h : Orderly s) : Orderly (fork s p) := by
  unfold Atomic.fork
  split
  · exact h
  rename_i q hfree
  have hunused : (s.procs q).state = .unused := by simpa using List.find?_some hfree
  have hnext := h.next
  refine ⟨?_, fun r hr => ?_, fun r r' => ?_, h.nonneg, fun m v hv => ?_, h.nodup, h.apart,
    fun r m hlive hmem => ?_, fun r => ?_⟩
  all_goals dsimp only at *
  · omega
  · have := h.pids r
    grind
  · have := h.pids r
    have := h.pids r'
    have := h.distinct r r'
    grind
  · have := h.old m v hv
    omega
  · have hmem : _ ∈ (s.mutexes m).queue := hmem
    have := h.old m _ hmem
    have := h.waiting r m
    grind
  · intro i
    have := h.listing r i
    grind

/-- What the default branch of `trap` does in a reachable state. -/
theorem Orderly.release (h : Orderly s) (huser : (s.procs p).InUser) :
    ∃ t, releaseMutexes s p = some t ∧ Releasing s p [] t := by
  have hpid := (h.pids p huser.live.1).1
  exact releaseMutexes_done (h.listing p) (by omega) (h.unqueued huser.live huser.not_waits)

theorem Releasing.orderly (hr : Releasing s p is t) (h : Orderly s) : Orderly t :=
  h.congr hr.queue hr.procs hr.nextpid

theorem Orderly.exit (h : Orderly s) (hused : (s.procs p).state ≠ .unused) : Orderly (s.exit p) :=
  h.update (fun _ => ⟨hused, rfl⟩) (fun hlive => absurd rfl hlive.2) id

theorem Orderly.step {e : Event} (h : Orderly s) (hstep : Step s e t) : Orderly t := by
  unfold Step Atomic.step at hstep
  cases e with
  | call p c =>
    obtain ⟨⟨huser, -⟩, hcall⟩ := Option.ite_none_right_eq_some.mp hstep
    obtain ⟨r, hr, rfl⟩ := Option.map_eq_some_iff.mp hcall
    have hcalled := h.called huser hr
    cases hret : r.1 with
    | none =>
      obtain ⟨x, t⟩ := r
      cases hret
      exact hcalled
    | some x =>
      have hstays := call_stays huser hr (by rw [hret]; nofun)
      exact hcalled.back hstays.live.1 fun _ _ => hcalled.unqueued hstays.live hstays.not_waits
  | goOn p =>
    obtain ⟨hstate, hgo⟩ := Option.ite_none_right_eq_some.mp hstep
    obtain ⟨r, hr, rfl⟩ := Option.map_eq_some_iff.mp hgo
    exact h.goOn hstate hr
  | mutexInit p =>
    obtain ⟨-, hinit⟩ := Option.ite_none_right_eq_some.mp hstep
    cases hinit
    exact h.init
  | fork p =>
    obtain ⟨-, hfork⟩ := Option.ite_none_right_eq_some.mp hstep
    cases hfork
    exact h.fork
  | exec p =>
    obtain ⟨-, hexec⟩ := Option.ite_none_right_eq_some.mp hstep
    cases hexec
    exact h.proc ⟨rfl, Iff.rfl, id, fun _ => id, fun _ _ => .inl rfl⟩
  | enter p n =>
    obtain ⟨-, henter⟩ := Option.ite_none_right_eq_some.mp hstep
    cases henter
    exact h.proc ⟨rfl, Iff.rfl, id, fun _ => id, id⟩
  | fault p =>
    obtain ⟨huser, hfault⟩ := Option.ite_none_right_eq_some.mp hstep
    obtain ⟨t, ht, rfl⟩ := Option.map_eq_some_iff.mp hfault
    obtain ⟨t', ht', hreleasing⟩ := h.release huser
    obtain rfl : t' = t := Option.some.inj (ht'.symm.trans ht)
    exact (hreleasing.orderly h).exit fun hc => huser.live.1 ((hreleasing.procs p).unused.mp hc)
  | exit p =>
    obtain ⟨huser, hexit⟩ := Option.ite_none_right_eq_some.mp hstep
    cases hexit
    exact h.exit huser.live.1
  | reap p =>
    obtain ⟨-, hreap⟩ := Option.ite_none_right_eq_some.mp hstep
    cases hreap
    exact h.update (fun hc => absurd rfl hc) (fun hlive => absurd rfl hlive.1) id

end Runs

/-! ## The machine after `userinit`

The mutex table and the process table are zero; `mutex_init` has not run.
-/

def boot : State where
  mutexes := fun _ => ⟨0, 0, 0, 0, fun _ => 0, 0⟩
  procs := fun q => ⟨if q = 0 then .running else .unused, .user, if q = 0 then 1 else 0, 0, false, fun _ => 0⟩
  nextpid := 2

theorem boot_orderly : Orderly boot where
  next := by decide
  pids := by decide
  distinct := by
    have honly : ∀ q, (boot.procs q).state ≠ .unused → q = 0 := by decide
    exact fun q r hq hr _ => (honly q hq).trans (honly r hr).symm
  nonneg := fun _ => le_refl 0
  old := fun _ _ hv => nomatch hv
  nodup := fun _ => List.nodup_nil
  apart := fun _ _ _ hv => nomatch hv
  waiting := fun _ _ _ hv => nomatch hv
  listing := fun _ _ => .inr ⟨0, rfl⟩

/-- `p` has no mutex and is in no wait queue in `t`; what it had in `s` is unlocked, and the owners of
the other mutexes, the other processes in the queues and the lists of the other processes are as they
were. -/
structure Released (s : State) (p : Slot) (t : State) : Prop where
  disowned : ∀ m, (t.mutexes m).pid ≠ (s.procs p).pid
  unlocked : ∀ m, (s.mutexes m).pid = (s.procs p).pid → (t.mutexes m).locked = 0
  unqueued : ∀ m, (s.procs p).pid ∉ (t.mutexes m).queue
  others : ∀ m, (s.mutexes m).pid ≠ (s.procs p).pid →
    (t.mutexes m).pid = (s.mutexes m).pid ∧ (t.mutexes m).locked = (s.mutexes m).locked
  queues : ∀ m, (t.mutexes m).queue = (s.mutexes m).queue.filter (· ≠ (s.procs p).pid)
  lists : ∀ q, q ≠ p → (t.procs q).procMutexes = (s.procs q).procMutexes

/-- In every reachable state, a fault of a process in user mode releases what it holds exactly if
every mutex with its pid is in use and in its `proc_mutexes`. -/
theorem fault_releases_iff {s : State} {es : List Event} (hrun : Run Step boot es s) {p : Slot}
    (huser : (s.procs p).InUser) :
    ∃ t, releaseMutexes s p = some t ∧
      (Released s p t ↔ ∀ m, (s.mutexes m).pid = (s.procs p).pid →
        (s.mutexes m).used ≠ 0 ∧ ∃ i : Mux, (s.procs p).procMutexes i = m.val) := by
  have h : Orderly s := hrun.invariant (fun _ _ _ hs => hs.step) boot_orderly
  have hpid := (h.pids p huser.live.1).1
  have hout := h.unqueued huser.live huser.not_waits
  obtain ⟨t, ht, hr⟩ := h.release huser
  refine ⟨t, ht, fun hreleased m hm => ?_, fun hlisted => ⟨fun m => ?_, fun m hm => ?_, fun m => ?_,
    fun m hm => ?_, fun m => ?_, hr.others⟩⟩
  · by_contra hno
    have hfrees : ¬ Frees s p [] m := by
      rintro ⟨hused, -, i, -, hi⟩
      exact hno ⟨hused, i, hi⟩
    have hsame := hr.mutexes m
    rw [if_neg hfrees] at hsame
    refine hreleased.disowned m ?_
    rw [hsame]
    exact hm
  · rw [hr.mutexes m]
    split
    · dsimp only
      omega
    · rename_i hnot
      intro hm
      obtain ⟨hused, i, hi⟩ := hlisted m hm
      exact hnot ⟨hused, hm, i, List.not_mem_nil, hi⟩
  · obtain ⟨hused, i, hi⟩ := hlisted m hm
    rw [hr.mutexes m, if_pos ⟨hused, hm, i, List.not_mem_nil, hi⟩]
  · rw [(hr.queue m).queue]
    exact hout m
  · rw [hr.mutexes m, if_neg fun hc => hm hc.2.1]
    exact ⟨rfl, rfl⟩
  · rw [(hr.queue m).queue, List.filter_eq_self.mpr]
    intro v hv
    refine decide_eq_true fun hc => ?_
    rw [hc] at hv
    exact hout m hv

/-- A child that runs another program has everything it locks on its list. -/
theorem fault_releases_after_exec : ∃ s t,
    Run Step boot [.exec 0, .fork 0, .exec 1, .call 1 .mutexCreate, .call 1 (.mutexLock 0)] s ∧
    (s.mutexes 0).pid = 2 ∧ releaseMutexes s 1 = some t ∧ Released s 1 t := by
  simp only [exists_and_left]
  refine Run.found id (fun s => ((s.procs 1).InUser ∧ (s.procs 1).pid = 2 ∧
    (s.procs 1).procMutexes 0 = 0) ∧ (s.mutexes 0).pid = 2 ∧ (s.mutexes 0).used = 1 ∧
      ∀ m, (s.mutexes m).pid = 2 → m = 0) (by decide +kernel) ?_
  rintro s hrun ⟨⟨huser, hpid, hentry⟩, howner, hused, honly⟩
  obtain ⟨t, ht, hiff⟩ := fault_releases_iff hrun huser
  refine ⟨howner, t, ht, hiff.mpr fun m hm => ?_⟩
  rw [hpid] at hm
  obtain rfl := honly m hm
  exact ⟨by rw [hused]; decide, 0, hentry⟩

/-- A child that keeps its program has zeros on its list, which are no empty entries: it locks the
second mutex, faults, and the mutex stays locked under its pid. -/
theorem fault_keeps_mutex : ∃ s t,
    Run Step boot [.exec 0, .fork 0, .call 1 .mutexCreate, .call 1 .mutexCreate,
      .call 1 (.mutexLock 1)] s ∧
    (s.procs 1).InUser ∧ releaseMutexes s 1 = some t ∧
    (t.mutexes 1).pid = (s.procs 1).pid ∧ (t.mutexes 1).locked = 1 := by
  simp only [exists_and_left]
  refine Run.found id (fun s => (s.procs 1).InUser ∧ (releaseMutexes s 1).any fun t =>
    (t.mutexes 1).pid = (s.procs 1).pid ∧ (t.mutexes 1).locked = 1) (by decide +kernel) ?_
  exact fun s _ h => ⟨h.1, exists_of_any h.2⟩

end Xv6.Sync.Atomic
