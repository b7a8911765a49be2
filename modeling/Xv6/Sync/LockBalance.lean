import Xv6.Sync.Model

/-! # Which calls give back the spin locks they take

`locksAt` agrees with the code at every program point, so a call that returns holds, on
top of what its caller held, the locks of its return point. Two return points have any.
-/

namespace Xv6.Sync

open Lib Lib.Spin

variable {ι : Type} [DecidableEq ι]

variable {P : Procs ι} {p : ι} {c : Pc} {s t : State ι}

/-- Where each call starts; a bad id ends the call, or leads out of the table. -/
inductive Starts : Call → Pc → Prop
  | bad (k : Call) (r : Int) : Starts k (.done r)
  | outOfBounds (k : Call) : Starts k .outOfBounds
  | create : Starts .mutexCreate .createAcquire
  | delete (m : Mux) : Starts (.mutexDelete m) (.deleteAcquire m)
  | lock (m : Mux) : Starts (.mutexLock m) (.lockUsed m)
  | unlock (m : Mux) : Starts (.mutexUnlock m) (.unlockAcquire m)
  | cvWait (m : Mux) : Starts (.cvWait m) (.cvAcquire m)
  | cvSignal (m : Mux) : Starts (.cvSignal m) (.signalAcquire m)
  | kill (pid : Int) : Starts (.kill pid) (.killAcquire pid)

theorem starts_checkMuxid {k : Call} (muxid err : Int) {next : Mux → Pc}
    (h : ∀ m : Mux, (m : Int) = muxid → Starts k (next m)) : Starts k (checkMuxid muxid err next) := by
  unfold checkMuxid withMux
  split
  · exact .bad k err
  · split
    · exact h _ (Int.toNat_of_nonneg (by omega))
    · exact .outOfBounds k

theorem starts_entry (k : Call) : Starts k (entry k) := by
  cases k with
  | mutexCreate => exact .create
  | mutexDelete muxid => exact starts_checkMuxid _ _ fun m hm => hm ▸ .delete m
  | mutexLock muxid => exact starts_checkMuxid _ _ fun m hm => hm ▸ .lock m
  | mutexUnlock muxid => exact starts_checkMuxid _ _ fun m hm => hm ▸ .unlock m
  | cvWait muxid => exact starts_checkMuxid _ _ fun m hm => hm ▸ .cvWait m
  | cvSignal muxid => exact starts_checkMuxid _ _ fun m hm => hm ▸ .cvSignal m
  | kill pid => exact .kill pid

theorem locksAt_entry (c : Call) : locksAt (entry c) = ∅ := by
  have hstarts := starts_entry c
  generalize entry c = k at hstarts
  cases hstarts <;> rfl

theorem code_fits (P : Procs ι) (p : ι) (c : Pc) : Fits locksAt c (code P p c) := by
  cases c with
  | createScan i =>
    by_cases h : i < muxMaxNum
    · simp only [code, dif_pos h, Fits]
      intro m
      split <;> rfl
    · simp only [code, dif_neg h, Fits]
      exact ⟨Finset.mem_singleton_self _, (Finset.erase_singleton _).symm⟩
  | deleteUsed m | deleteLocked m | deleteWaiters m | lockUsed m =>
    intro s; dsimp only; split <;> rfl
  | lockNameSpace m | lockPid m | lockTest m | unlockUsed m | unlockPid m =>
    intro s; dsimp only; split <;> rfl
  | cvUsed m | cvPid m | cvFull m | signalTest m => intro s; dsimp only; split <;> rfl
  | _ => simp [code, Fits, locksAt, Finset.ext_iff]; try grind

theorem program_annotated (P : Procs ι) : Annotates (program P.toTable) locksAt :=
  .of_fits locksAt_entry (code_fits P)

/-! ## The two return points that keep locks -/

/-- `mutex_delete`'s `return -4` and `cv_wait`'s `return -1` on a full queue. -/
def Leaky (c : Pc) : Prop := c = .deleteBusy ∨ ∃ m, c = .cvQueueFull m

/-- The step of `p` that leads there: `mutex_delete` finds waiters, or `cv_wait` finds
`MUX_MAXNUM` of them. -/
def Leaks (p : ι) (s : State ι) (a : Label ι) : Prop :=
  a = .step p ∧ ∃ m,
    (s.pc p = some (.deleteWaiters m) ∧ (s.mem.mutexes m).numWaiters > 0) ∨
    (s.pc p = some (.cvFull m) ∧ (s.mem.mutexes m).numWaiters = muxMaxNum)

theorem locksAt_ret {r : Int} (h : code P p c = .ret r) : locksAt c = ∅ ↔ ¬ Leaky c := by
  cases c with
  | createScan i =>
    by_cases hi : i < muxMaxNum <;> simp [code, hi] at h
  | _ => simp_all [code, locksAt, Leaky]

theorem effect_createScan (P : Procs ι) (p : ι) (i : Nat) (x : Mem ι) :
    (code P p (.createScan i)).effect x = x ∨ ∃ m, (x.mutexes m).used = 0 ∧
      (code P p (.createScan i)).effect x = x.mutex m fun y => { y with used := 1 } := by
  by_cases hi : i < muxMaxNum
  · simp only [code, dif_pos hi, Instr.effect]
    split
    · exact .inr ⟨_, ‹_›, rfl⟩
    · exact .inl rfl
  · simp [code, hi, Instr.effect]

theorem target_createScan {i : Nat} {x : Mem ι} (h : (code P p (.createScan i)).target x = some c) :
    (∃ m, c = .createName m) ∨ c = .createScan (i + 1) ∨ c = .done (-1) := by
  by_cases hi : i < muxMaxNum
  · simp only [code, dif_pos hi, Instr.target, Option.some.injEq] at h
    subst h
    split
    · exact .inl ⟨_, rfl⟩
    · exact .inr (.inl rfl)
  · simp only [code, dif_neg hi, Instr.target, Option.some.injEq] at h
    exact .inr (.inr h.symm)

/-- What leads to the points around the sleeps of a call, and to those of `cv_signal`. -/
def ComesFrom (x : Mem ι) (c : Pc) : Pc → Prop
  | .sleepAcquire m => c = .lockTest m ∧ (x.mutexes m).locked ≠ 0
  | .sleepRelease m => c = .sleepAcquire m
  | .sleepMark m => c = .sleepRelease m
  | .sleepSched m => c = .sleepMark m
  | .sleepWait m => c = .sleepSched m
  | .cvPtable m => c = .cvAcquire m
  | .cvMark m => c = .cvEnqueue m
  | .cvRelease m => c = .cvMark m
  | .cvSched m => c = .cvRelease m
  | .cvWait m => c = .cvSched m
  | .cvReacquire m => c = .cvWait m
  | .signalShift m => c = .signalTest m ∧ (x.mutexes m).numWaiters ≠ 0
  | .signalWake m v => c = .signalShift m ∧ v = (x.mutexes m).waiters 0
  | _ => True

theorem comesFrom_target {c' : Pc} {x : Mem ι} (h : (code P p c).target x = some c') :
    ComesFrom x c c' := by
  cases c with
  | createScan i => rcases target_createScan h with ⟨k, rfl⟩ | rfl | rfl <;> trivial
  | _ =>
    simp only [code, Instr.target, Option.some.injEq, reduceCtorEq] at h
    try subst h
    try split
    all_goals trivial

theorem comesFrom {c' : Pc} (hx : Executed s p (code P p c) t) (h : t.pc p = some c') :
    ComesFrom s.mem c c' := by
  obtain ⟨k, htarget, hpc⟩ := hx.target_isSome
  rw [hpc, Function.update_self] at h
  exact comesFrom_target (htarget.trans h)

theorem target_leaky (P : Procs ι) (p : ι) (c c' : Pc) (m : Mem ι)
    (h : (code P p c).target m = some c') :
    Leaky c' ↔ ∃ x, (c = .deleteWaiters x ∧ (m.mutexes x).numWaiters > 0) ∨
      (c = .cvFull x ∧ (m.mutexes x).numWaiters = muxMaxNum) := by
  cases c with
  | createScan i => rcases target_createScan h with ⟨k, rfl⟩ | rfl | rfl <;> simp [Leaky]
  | _ =>
    simp only [code, Instr.target, Option.some.injEq, reduceCtorEq] at h
    try subst h
    try split
    all_goals simp_all [Leaky]

/-- No process is inside a call and no lock is held. -/
def Quiet (s : State ι) : Prop :=
  (∀ p, s.pc p = none) ∧ ∀ l, s.owner l = none

theorem step_leaky {a : Label ι} (h : Step (program P) s a t) (hc : s.pc p = some c) (hgood : ¬ Leaky c)
    (hret : ∀ r, a ≠ .ret p r) : ∃ c', t.pc p = some c' ∧ (Leaky c' ↔ Leaks p s a) := by
  by_cases ha : a = .step p
  · subst ha
    obtain ⟨c', htgt, hpc⟩ := (executed_at h hc).target_isSome
    refine ⟨c', by rw [hpc, Function.update_self], (target_leaky P p c c' s.mem htgt).trans ?_⟩
    simp [Leaks, hc]
  · refine ⟨c, pc_frame h hc hret ha, ?_⟩
    exact ⟨fun hl => absurd hl hgood, fun hl => absurd hl.1 ha⟩

theorem leaky_stays {as : List (Label ι)} (hrun : Run (Step (program P)) s as t) (hc : s.pc p = some c)
    (hleak : Leaky c) (hret : ∀ a ∈ as, ∀ r, a ≠ .ret p r) : t.pc p = some c := by
  refine hrun.invariant_of_labels (fun a => ∀ r, a ≠ .ret p r) (fun s => s.pc p = some c) ?_
    hret hc
  intro s a t hc hr hstep
  refine pc_frame hstep hc hr ?_
  rintro rfl
  have hx := executed_at hstep hc
  rcases hleak with rfl | ⟨m, rfl⟩ <;> cases hx

/-- Inside a call, a leaky point is reached exactly by a run with a leaking step. -/
theorem run_leaky_iff {as : List (Label ι)} (hrun : Run (Step (program P)) s as t) (hc : s.pc p = some c)
    (hgood : ¬ Leaky c) (hret : ∀ a ∈ as, ∀ r, a ≠ .ret p r) : (∃ c', t.pc p = some c' ∧ ¬ Leaky c') ↔
      Run (Guarded (Step (program P)) fun s a => ¬ Leaks p s a) s as t := by
  induction hrun generalizing c with
  | nil s => exact ⟨fun _ => .nil s, fun _ => ⟨c, hc, hgood⟩⟩
  | @cons s v t a as hstep hrest ih =>
    have hret' : ∀ b ∈ as, ∀ r, b ≠ .ret p r := fun b hb => hret b (List.mem_cons_of_mem a hb)
    obtain ⟨c', hc', hiff⟩ := step_leaky hstep hc hgood (hret a List.mem_cons_self)
    by_cases hleak : Leaks p s a
    · have hstay := leaky_stays hrest hc' (hiff.mpr hleak) hret'
      constructor
      · rintro ⟨c'', hc'', hn⟩
        rw [hstay] at hc''
        cases hc''
        exact absurd (hiff.mpr hleak) hn
      · intro hguard
        obtain ⟨_, hg, _⟩ := hguard.cons_inv
        exact absurd hleak hg.1
    · rw [ih hc' (fun hl => hleak (hiff.mp hl)) hret']
      constructor
      · exact fun hg => .cons ⟨hleak, hstep⟩ hg
      · intro hguard
        obtain ⟨v', hg, hrest'⟩ := hguard.cons_inv
        obtain rfl := step_unique hg.2 hstep
        exact hrest'

/-! ## Results -/

theorem entry_not_leaky (c : Call) : ¬ Leaky (entry c) := by
  have hlocks := locksAt_entry c
  rintro (he | ⟨m, he⟩) <;> rw [he] at hlocks <;> simp [locksAt] at hlocks

/-- From any state of the table and of the locks, and against any other processes: a call
that returns leaves its caller with the spin locks it had at the call exactly when no step
of it was a `mutex_delete` that finds waiters or a `cv_wait` that finds the queue full. -/
theorem spinlocks_balanced_iff (P : Procs ι) (p : ι) (call : Call) (r : Int)
    (as : List (Label ι)) (s t : State ι)
    (hrun : Run (Step (program P)) s (.call p call :: (as ++ [.ret p r])) t)
    (hret : ∀ a ∈ as, ∀ r', a ≠ .ret p r') :
    (∀ l, t.owner l = some p ↔ s.owner l = some p) ↔
      Run (Guarded (Step (program P)) fun s a => ¬ Leaks p s a) s
        (.call p call :: (as ++ [.ret p r])) t := by
  obtain ⟨s1, hcall, hrest⟩ := hrun.cons_inv
  obtain ⟨s2, hbody, hlast⟩ := hrest.append_inv
  obtain ⟨t', hend, hnil⟩ := hlast.cons_inv
  cases hnil
  have hA := program_annotated P
  obtain ⟨c, hc, hheld, hdisj⟩ := hbody.invariant_of_labels (fun a => ∀ r', a ≠ .ret p r')
    (Holding locksAt (fun l => s.owner l = some p) p)
    (fun _ _ _ h hr hs => h.step hA hs hr) hret (holding_call hA hcall)
  -- the return point decides
  obtain ⟨howner, hlocks⟩ : t.owner = s2.owner ∧ (locksAt c = ∅ ↔ ¬ Leaky c) := by
    obtain ⟨k, hk, hcode, rfl⟩ := returned_of_step hend
    rw [hc] at hk
    cases hk
    exact ⟨rfl, locksAt_ret hcode⟩
  have hbalanced : (∀ l, t.owner l = some p ↔ s.owner l = some p) ↔ locksAt c = ∅ := by
    rw [howner]
    constructor
    · intro hsame
      refine Finset.eq_empty_of_forall_notMem fun l hl => ?_
      exact hdisj l hl ((hsame l).mp ((hheld l).mpr (.inr hl)))
    · intro hempty l
      rw [hheld l, hempty]
      simp
  have hentry : s1.pc p = some (entry call) := by
    obtain ⟨-, rfl⟩ := called_of_step hcall
    exact goto_pc_self
  have hiff := run_leaky_iff hbody hentry (entry_not_leaky call) hret
  have hcallOk : ¬ Leaks p s (.call p call) := fun h => nomatch h.1
  have hendOk : ¬ Leaks p s2 (.ret p r) := fun h => nomatch h.1
  rw [hbalanced, hlocks]
  constructor
  · intro hn
    have hguard := hiff.mp ⟨c, hc, hn⟩
    exact .cons ⟨hcallOk, hcall⟩ (hguard.append (.single ⟨hendOk, hend⟩))
  intro hguard
  obtain ⟨v, hg, hrest'⟩ := hguard.cons_inv
  obtain rfl := step_unique hg.2 hcall
  obtain ⟨w, hbody', -⟩ := hrest'.append_inv
  obtain rfl : w = s2 := run_unique hbody'.of_guarded hbody
  obtain ⟨c', hc', hn⟩ := hiff.mpr hbody'
  rw [hc] at hc'
  cases hc'
  exact hn

/-! ## Two concrete runs -/

/-- Processes running in user mode, no lock taken. -/
def booted (ι : Type) : State ι where
  mem := ⟨mutexInit, fun _ => ⟨.running, none, false, fun _ => -1⟩⟩
  owner := fun _ => none
  ncli := fun _ => 0
  pc := fun _ => none

instance three_neZero : NeZero 3 := ⟨by decide⟩

theorem threePids_injective : Function.Injective fun p : Fin 3 => (p.val : Int) + 1 :=
  fun p q h => Fin.ext (by dsimp only at h; omega)

def threeProcs : Procs (Fin 3) where
  slots := [0, 1, 2]
  pid := fun p => p.val + 1
  nameSpace := fun _ => 0
  pid_injective := threePids_injective

def steps {ι : Type} (p : ι) (n : Nat) : List (Label ι) := List.replicate n (.step p)

instance (p : ι) (s : State ι) (a : Label ι) : Decidable (Leaks p s a) :=
  have : Decidable (a = .step p) := match a with
    | .call _ _ => isFalse nofun
    | .step q => decidable_of_iff (q = p) ⟨fun h => h ▸ rfl, fun h => by cases h; rfl⟩
    | .ret _ _ => isFalse nofun
  inferInstanceAs (Decidable (_ ∧ _))

/-- `mutex_create` by the first process takes and gives back `mutex_table.lock`. -/
theorem spinlocks_balanced_create :
    ∃ t, Run (Step (program threeProcs)) (booted (Fin 3))
        (.call 0 .mutexCreate :: (steps 0 4 ++ [.ret 0 0])) t ∧
      ∀ l, t.owner l = some 0 ↔ (booted (Fin 3)).owner l = some 0 := by
  refine Run.exists_of_guarded (fun s a => ¬ Leaks 0 s a) (Run.foundOk id (fun _ => True)
    (by decide +kernel) fun t hguard _ => ?_)
  refine (spinlocks_balanced_iff threeProcs 0 .mutexCreate 0 (steps 0 4) _ t hguard.of_guarded ?_).mpr
    hguard
  intro a ha r
  rw [List.eq_of_mem_replicate ha]
  nofun

/-- `mutex_delete` on an unlocked mutex with a waiter returns `-4` with `mutex_table.lock`
held: the first process creates the mutex and the second waits on it. -/
theorem mutex_delete_keeps_lock :
    ∃ s t, Run (Step (program threeProcs)) (booted (Fin 3))
        (.call 0 .mutexCreate :: steps 0 4 ++ [.ret 0 0, .call 1 (.cvWait 0)] ++ steps 1 9) s ∧
      Run (Step (program threeProcs)) s (.call 2 (.mutexDelete 0) :: (steps 2 4 ++ [.ret 2 (-4)])) t ∧
      s.owner .table = none ∧ t.owner .table = some 2 := by
  simp only [exists_and_left]
  exact Run.found id (fun s => (execute (step (program threeProcs)) s
    (.call 2 (.mutexDelete 0) :: (steps 2 4 ++ [.ret 2 (-4)]))).any fun t =>
      s.owner .table = none ∧ t.owner .table = some 2) (by decide +kernel)
    fun s _ h => Run.found id _ h fun _ _ h => h

end Xv6.Sync
