import Xv6.Sync.LockBalance

/-! # Mutual exclusion of the user mutexes

The argument is made once, for one mutex and an abstract protocol on it: processes look at
the mutex, take it, put their pid on it, own it, and clear it, with at most one of them
inside the section that `mutex->lock` protects. Every step of the calls is a move of that
protocol, or leaves it alone, as long as `cv_wait` and `mutex_delete` write `locked` only
where it is `0`.
-/

namespace Xv6.Sync

open Function
open Lib Lib.Spin

variable {ι : Type} [DecidableEq ι]

variable {p : ι} {pid : ι → Int} {c : Pc} {P : Procs ι}

/-! ## The protocol on one mutex -/

/-- What a process is doing with the mutex: it has found it unlocked, found its own pid on
it, cleared it, set `locked`, or has set `locked` and `pid` and is about to return. -/
inductive Role
  | idle | found | checked | cleared | taking | named
  deriving DecidableEq

/-- The roles played under `mutex->lock` throughout. -/
def Role.inside : Role → Bool
  | .found | .checked | .cleared | .taking => true
  | .idle | .named => false

structure View (ι : Type) where
  locked : Nat
  pid : Int
  role : ι → Role
  owns : ι → Bool

def View.setRole (v : View ι) (p : ι) (r : Role) : View ι :=
  { v with role := update v.role p r }

inductive Move (pid : ι → Int) (v : View ι) (p : ι) : View ι → Prop
  | stay : Move pid v p v
  | find (hrole : v.role p = .idle) (hfree : v.locked = 0) : Move pid v p (v.setRole p .found)
  | check (hrole : v.role p = .idle) (hpid : v.pid = pid p) :
      Move pid v p (v.setRole p .checked)
  | clear (hrole : v.role p = .checked) :
      Move pid v p { v.setRole p .cleared with
        locked := 0, owns := update v.owns p false }
  | clearPid (hrole : v.role p = .cleared) : Move pid v p { v.setRole p .idle with pid := -1 }
  | take (hrole : v.role p = .found ∨ v.role p = .idle ∧ v.locked = 0) :
      Move pid v p { v.setRole p .taking with locked := 1 }
  | name (hrole : v.role p = .taking) : Move pid v p { v.setRole p .named with pid := pid p }
  | own (hrole : v.role p = .named) :
      Move pid v p { v.setRole p .idle with owns := update v.owns p true }

/-- The process owns the mutex or has set `locked` for itself. -/
def View.Holder (v : View ι) (p : ι) : Prop :=
  v.owns p = true ∨ v.role p = .taking ∨ v.role p = .named

structure Sound (pid : ι → Int) (v : View ι) : Prop where
  found_unlocked : ∀ p, v.role p = .found ∨ v.role p = .cleared → v.locked = 0
  checked_pid : ∀ p, v.role p = .checked → v.pid = pid p
  holder_locked : ∀ p, v.Holder p → v.locked ≠ 0
  holder_unique : ∀ p q, v.Holder p → v.Holder q → p = q
  named_pid : ∀ p, v.owns p = true ∨ v.role p = .named → v.pid = pid p

/-- At most one process is inside the locked section. -/
def Inside (v : View ι) : Prop :=
  ∀ p q, (v.role p).inside = true → (v.role q).inside = true → p = q

variable {w v : View ι}

@[simp, grind =] theorem role_setRole (v : View ι) (p q : ι) (r : Role) :
    (v.setRole p r).role q = if q = p then r else v.role q := update_apply ..

@[grind =] theorem owns_setRole {q : ι} (r : Role) : (v.setRole p r).owns q = v.owns q := rfl

omit [DecidableEq ι] in
theorem Sound.of_free (hfree : w.locked = 0) (hnone : ∀ q, ¬ w.Holder q)
    (hchecked : ∀ q, w.role q = .checked → w.pid = pid q) : Sound pid w where
  found_unlocked := fun _ _ => hfree
  checked_pid := hchecked
  holder_locked := fun q hq => absurd hq (hnone q)
  holder_unique := fun q _ hq => absurd hq (hnone q)
  named_pid := fun q hq => absurd (hq.imp id .inr) (hnone q)

omit [DecidableEq ι] in
theorem Inside.others (hin : Inside v) (hp : (v.role p).inside = true) (q : ι) (hq : q ≠ p) :
    v.role q = .idle ∨ v.role q = .named := by
  have := hin q p
  cases hr : v.role q <;> simp_all [Role.inside]

theorem Move.sound (hinj : Injective pid) (h : Move pid v p w) (hv : Sound pid v) (hin : Inside v)
    (hin' : Inside w) : Sound pid w := by
  obtain ⟨hfound, hchecked, hlocked, hunique, hnamed⟩ := id hv
  unfold View.Holder at hlocked hunique
  cases h with
  | stay => exact hv
  | find hrole hfree => constructor <;> (try unfold View.Holder) <;> grind [View.setRole]
  | check hrole hpid =>
    refine ⟨?_, ?_, ?_, fun q r hq hr => hv.holder_unique q r ?_ ?_, ?_⟩ <;>
      unfold View.Holder at * <;> grind [View.setRole]
  | clear hrole =>
    -- another holder has its own pid on the mutex, or is inside with `p`
    have hother := hin.others (by rw [hrole]; rfl)
    constructor <;> (try unfold View.Holder) <;> grind [View.setRole, update_apply, Injective]
  | clearPid hrole | name hrole =>
    have hother := hin.others (by rw [hrole]; rfl)
    constructor <;> (try unfold View.Holder) <;> grind [View.setRole]
  | take hrole =>
    have hother := hin'.others (p := p) (by simp [Role.inside])
    constructor <;> (try unfold View.Holder) <;> grind [View.setRole]
  | own hrole => constructor <;> (try unfold View.Holder) <;> grind [View.setRole, update_apply]

/-! ## The calls as moves of the protocol -/

/-- A state with, for each process, the mutexes it owns: from the moment `mutex_lock` or
`cv_wait` returns `1` until `mutex_unlock` clears `locked`, after which it returns `1`. -/
structure Tracked (ι : Type) where
  state : State ι
  owns : ι → Mux → Bool

def track (s : State ι) (owns : ι → Mux → Bool) : Label ι → ι → Mux → Bool
  | .call _ _ => owns
  | .step p =>
    match s.pc p with
    | some (.unlockClear m) => update owns p (update (owns p) m false)
    | _ => owns
  | .ret p _ =>
    match s.pc p with
    | some (.lockDone m) | some (.cvDone m) =>
      update owns p (update (owns p) m true)
    | _ => owns

def trackedStep (P : Procs ι) (x : Tracked ι) (a : Label ι) : Option (Tracked ι) :=
  (step (program P) x.state a).map fun t => ⟨t, track x.state x.owns a⟩

/-- `cv_wait` takes the mutex, and `mutex_delete` clears it, only where it is unlocked. -/
def WritesUnlocked (x : Tracked ι) (a : Label ι) : Prop :=
  ∀ p m, a = .step p → x.state.pc p = some (.cvSet m) ∨ x.state.pc p = some (.deleteClearLocked m) →
    (x.state.mem.mutexes m).locked = 0

/-- The part a program point plays for mutex `m`. -/
def roleAt (m : Mux) : Pc → Role
  | .lockSet k => if k = m then .found else .idle
  | .unlockRecord k | .unlockClear k => if k = m then .checked else .idle
  | .unlockClearPid k => if k = m then .cleared else .idle
  | .lockSetPid k | .cvSetPid k => if k = m then .taking else .idle
  | .lockRecord k | .lockRelease k | .lockDone k | .cvRecord k | .cvReleaseMux k
  | .cvReleasePtable k | .cvDone k => if k = m then .named else .idle
  | _ => .idle

def roleOf (m : Mux) : Option Pc → Role
  | none => .idle
  | some c => roleAt m c

def view (x : Tracked ι) (m : Mux) : View ι where
  locked := (x.state.mem.mutexes m).locked
  pid := (x.state.mem.mutexes m).pid
  role := fun p => roleOf m (x.state.pc p)
  owns := fun p => x.owns p m

variable {x y : Tracked ι}

theorem roleAt_entry (m : Mux) (c : Call) : roleAt m (entry c) = .idle := by
  have hstarts := starts_entry c
  generalize entry c = k at hstarts
  cases hstarts <;> rfl

theorem mux_mem_locksAt {m : Mux} (h : (roleAt m c).inside = true) : Lock.mux m ∈ locksAt c := by
  cases c <;> simp_all [roleAt, Role.inside, locksAt] <;> grind

omit [DecidableEq ι] in
theorem inside_view (h : Owned locksAt x.state) (m : Mux) : Inside (view x m) := by
  intro p q hp hq
  have owner : ∀ r, ((view x m).role r).inside = true → x.state.owner (.mux m) = some r := by
    intro r hr
    cases hc : x.state.pc r with
    | none => simp [view, roleOf, hc, Role.inside] at hr
    | some c =>
      simp only [view, roleOf, hc] at hr
      exact h r c hc _ (mux_mem_locksAt hr)
  have := (owner p hp).symm.trans (owner q hq)
  exact Option.some.inj this

theorem setRole_eq_self {r : Role} (h : v.role p = r) : v.setRole p r = v := by
  unfold View.setRole
  rw [← h, update_eq_self]

/-- The view after a step of `p`, which goes to `o`. -/
theorem view_moved {o : Option Pc} (hpc : y.state.pc = update x.state.pc p o) (m : Mux) :
    view y m = { (view x m).setRole p (roleOf m o) with
      locked := (y.state.mem.mutexes m).locked
      pid := (y.state.mem.mutexes m).pid
      owns := fun q => y.owns q m } := by
  unfold view View.setRole
  rw [hpc]
  congr
  funext q
  rw [update_apply, apply_ite (roleOf m)]
  exact (role_setRole (view x m) p q _).symm

theorem locked_effect (s : Mem ι) (m : Mux) :
    (((code P p c).effect s).mutexes m).locked =
      if c = .lockSet m ∨ c = .cvSet m then 1
      else if c = .unlockClear m ∨ c = .deleteClearLocked m then 0
      else (s.mutexes m).locked := by
  cases c with
  | createScan i =>
    rcases effect_createScan P p i s with heq | ⟨k, -, heq⟩ <;>
      simp [heq, Mem.mutex_mutexes, apply_ite Mutex.locked]
  | _ =>
    simp [code, Instr.effect, Mem.mutex_mutexes, apply_ite Mutex.locked, shiftWaiters]

theorem pid_effect (s : Mem ι) (m : Mux) :
    (((code P p c).effect s).mutexes m).pid =
      if c = .lockSetPid m ∨ c = .cvSetPid m then P.pid p
      else if c = .unlockClearPid m then -1 else (s.mutexes m).pid := by
  cases c with
  | createScan i =>
    rcases effect_createScan P p i s with heq | ⟨k, -, heq⟩ <;>
      simp [heq, Mem.mutex_mutexes, apply_ite Mutex.pid]
  | _ =>
    simp [code, Instr.effect, Mem.mutex_mutexes, apply_ite Mutex.pid, shiftWaiters]

theorem update_owns (owns : ι → Mux → Bool) (k m : Mux) (b : Bool) :
    (fun q => update owns p (update (owns p) k b) q m) =
      if k = m then update (fun q => owns q m) p b else fun q => owns q m := by
  funext q
  by_cases hq : q = p <;> by_cases hk : m = k <;> simp [hq, hk, Ne.symm]

theorem track_step {s : State ι} (hc : s.pc p = some c) (owns : ι → Mux → Bool) (m : Mux) :
    (fun q => track s owns (.step p) q m) =
      if c = .unlockClear m then update (fun q => owns q m) p false else fun q => owns q m := by
  simp only [track, hc]
  cases c with
  | unlockClear k =>
    rw [update_owns]
    simp only [Pc.unlockClear.injEq]
  | _ => rfl

/-- The points that write `locked` or `pid` of mutex `m`. -/
def writesMutex (m : Mux) : Pc → Bool
  | .lockSet k | .cvSet k | .unlockClear k | .deleteClearLocked k | .lockSetPid k | .cvSetPid k
  | .unlockClearPid k => k == m
  | _ => false

theorem writesMutex_iff {m : Mux} : writesMutex m c = true ↔ c = .lockSet m ∨ c = .cvSet m ∨
    c = .unlockClear m ∨ c = .deleteClearLocked m ∨ c = .lockSetPid m ∨ c = .cvSetPid m ∨
    c = .unlockClearPid m := by
  cases c <;> simp [writesMutex]

/-- A step that writes nothing to `m` changes its part only where it finds `m` unlocked, or its own pid
on it. -/
theorem roleAt_target {c' : Pc} {s : Mem ι} {m : Mux} (htgt : (code P p c).target s = some c')
    (hplain : ¬ writesMutex m c = true) : roleAt m c' = roleAt m c ∨
      (c = .lockTest m ∧ c' = .lockSet m ∧ (s.mutexes m).locked = 0) ∨
      c = .unlockPid m ∧ c' = .unlockRecord m ∧ (s.mutexes m).pid = P.pid p := by
  cases c with
  | createScan i => rcases target_createScan htgt with ⟨k, rfl⟩ | rfl | rfl <;> exact .inl rfl
  | _ =>
    simp only [code, Instr.target, Option.some.injEq, reduceCtorEq] at htgt
    try subst htgt
    all_goals grind [roleAt, writesMutex]

/-- Every instruction is a move of the protocol on every mutex. -/
theorem move_of_executed (hc : x.state.pc p = some c) (hx : Executed x.state p (code P p c) y.state)
    (howns : y.owns = track x.state x.owns (.step p)) (hok : WritesUnlocked x (.step p)) (m : Mux) :
    Move P.pid (view x m) p (view y m) := by
  obtain ⟨c', htgt, hpc⟩ := hx.target_isSome
  have hpart : (view x m).role p = roleAt m c := by simp [view, hc, roleOf]
  rw [view_moved hpc m, hx.mem_eq, howns, locked_effect, pid_effect, track_step hc]
  by_cases hwrites : writesMutex m c = true
  · rcases writesMutex_iff.mp hwrites with rfl | rfl | rfl | rfl | rfl | rfl | rfl
    all_goals
      cases htgt
      simp only [roleAt, if_true] at hpart
      simp only [roleOf, roleAt, reduceCtorEq, or_true, true_or, or_self, if_true, if_false]
    · exact .take (.inl hpart)
    · exact .take (.inr ⟨hpart, hok p m rfl (.inl hc)⟩)
    · exact .clear hpart
    · rw [← hok p m rfl (.inr hc), setRole_eq_self hpart]
      exact .stay
    · exact .name hpart
    · exact .name hpart
    · exact .clearPid hpart
  · have hnone := hwrites
    rw [writesMutex_iff, not_or, not_or, not_or, not_or, not_or, not_or] at hnone
    simp only [roleOf, hnone, or_self, if_false]
    obtain hrole | ⟨rfl, rfl, hfree⟩ | ⟨rfl, rfl, hpid⟩ := roleAt_target htgt hwrites
    · rw [setRole_eq_self (hpart.trans hrole.symm)]
      exact .stay
    · simp only [roleAt, if_true]
      exact .find hpart hfree
    · simp only [roleAt, if_true]
      exact .check hpart hpid

theorem move_of_ret {r : Int} (hc : x.state.pc p = some c) (hcode : code P p c = .ret r)
    (hstate : y.state = { x.state with pc := update x.state.pc p none })
    (howns : y.owns = track x.state x.owns (.ret p r)) (m : Mux) :
    Move P.pid (view x m) p (view y m) := by
  have hpart : (view x m).role p = roleAt m c := by simp [view, hc, roleOf]
  rw [view_moved (o := none) (congrArg _ hstate) m, hstate, howns]
  simp only [track, hc]
  -- the two success returns, and the rest
  have own : ∀ k, roleAt m c = (if k = m then .named else .idle) →
      Move P.pid (view x m) p { (view x m).setRole p .idle with
        owns := fun q => update x.owns p (update (x.owns p) k true) q m } := by
    intro k hrole
    rw [hrole] at hpart
    rw [update_owns]
    split at hpart
    · rename_i hk
      rw [if_pos hk]
      exact .own hpart
    · rename_i hk
      rw [if_neg hk, setRole_eq_self hpart]
      exact .stay
  cases c with
  | createScan i => by_cases hi : i < muxMaxNum <;> simp [code, hi] at hcode
  | lockDone k | cvDone k => exact own k rfl
  | deleteBusy | cvQueueFull k | done r =>
    rw [setRole_eq_self (r := roleOf m none) hpart]
    exact .stay
  | _ => simp [code] at hcode

theorem view_call {c : Call} (hc : x.state.pc p = none)
    (hstate : y.state = x.state.goto p ((program P.toTable).entry c)) (howns : y.owns = x.owns) (m : Mux) :
    view y m = view x m := by
  have hidle : (view x m).role p = roleOf m (some (entry c)) := by
    simp only [view, hc, roleOf, roleAt_entry]
  rw [view_moved (o := some (entry c)) (congrArg _ hstate) m, setRole_eq_self hidle, hstate, howns]
  rfl

/-! ## Runs -/

abbrev TrackedStep (P : Procs ι) (x : Tracked ι) (a : Label ι) (y : Tracked ι) : Prop :=
  trackedStep P x a = some y

/-- Nobody is inside a call, no mutex is locked and none is owned. -/
structure AtRest (x : Tracked ι) : Prop where
  pc : ∀ p, x.state.pc p = none
  unlocked : ∀ m, (x.state.mem.mutexes m).locked = 0
  unowned : ∀ p m, x.owns p m = false

structure Exclusive (P : Procs ι) (x : Tracked ι) : Prop where
  owned : Owned locksAt x.state
  sound : ∀ m, Sound P.pid (view x m)

omit [DecidableEq ι] in
theorem AtRest.exclusive (h : AtRest x) : Exclusive P x where
  owned := fun p c hc => by
    rw [h.pc p] at hc
    cases hc
  sound := fun m => by
    refine .of_free (h.unlocked m) (fun p hp => ?_) (fun p hp => ?_)
    · simp [View.Holder, view, h.unowned, h.pc, roleOf] at hp
    · simp [view, h.pc, roleOf] at hp

theorem Exclusive.step {a : Label ι} (h : Exclusive P x) (hok : WritesUnlocked x a)
    (hstep : TrackedStep P x a y) : Exclusive P y := by
  obtain ⟨t, ht, rfl⟩ := Option.map_eq_some_iff.mp hstep
  have howned : Owned locksAt t := h.owned.step (program_annotated P) ht
  refine ⟨howned, fun m => ?_⟩
  have hin := inside_view h.owned m
  have hin' : Inside (view ⟨t, track x.state x.owns a⟩ m) := inside_view howned m
  obtain ⟨p, c, rfl, hc, hs⟩ | ⟨p, c, rfl, hc, hx⟩ | ⟨p, c, r, rfl, hc, hcode, hs⟩ := step_cases ht
  · have hview : view ⟨t, x.owns⟩ m = view x m :=
      view_call (P := P) (x := x) (y := ⟨t, x.owns⟩) hc hs rfl m
    exact hview ▸ h.sound m
  · exact (move_of_executed (P := P) (y := ⟨t, _⟩) hc hx rfl hok m).sound P.pid_injective (h.sound m) hin hin'
  · exact (move_of_ret (P := P) (y := ⟨t, _⟩) hc hcode hs rfl m).sound P.pid_injective (h.sound m) hin hin'

/-- In every run in which `cv_wait` takes the mutex and `mutex_delete` clears it only where
it is unlocked, no two processes own a mutex at the same time. -/
theorem mutex_exclusive (P : Procs ι) (x y : Tracked ι) (as : List (Label ι)) (hx : AtRest x)
    (hrun : Run (Guarded (TrackedStep P) WritesUnlocked) x as y) (p q : ι) (m : Mux)
    (hp : y.owns p m = true) (hq : y.owns q m = true) : p = q := by
  have hy : Exclusive P y :=
    hrun.invariant_of_guarded (fun _ _ _ h hok hs => h.step hok hs) hx.exclusive
  exact (hy.sound m).holder_unique p q (.inl hp) (.inl hq)

def bootedTracked (ι : Type) : Tracked ι := ⟨booted ι, fun _ _ => false⟩

def createAndLock : List (Label (Fin 3)) :=
  .call 0 .mutexCreate :: (steps 0 4 ++ (.ret 0 0 :: .call 0 (.mutexLock 0) ::
    (steps 0 9 ++ [.ret 0 1])))

instance (x : Tracked ι) (a : Label ι) : Decidable (WritesUnlocked x a) :=
  match a with
  | .call _ _ => isTrue nofun
  | .ret _ _ => isTrue nofun
  | .step q => decidable_of_iff (∀ m, x.state.pc q = some (.cvSet m) ∨
      x.state.pc q = some (.deleteClearLocked m) → (x.state.mem.mutexes m).locked = 0)
      ⟨fun h _ m ha hc => h m (by cases ha; exact hc), fun h m => h q m rfl⟩

theorem mutex_exclusive_lock :
    ∃ y, Run (Guarded (TrackedStep threeProcs) WritesUnlocked) (bootedTracked (Fin 3)) createAndLock y ∧
      y.owns 0 0 = true ∧ ∀ q, y.owns q 0 = true → 0 = q := by
  exact Run.foundOk id (fun y => y.owns 0 0 = true) (by decide +kernel) fun y hrun howns => ⟨howns,
    fun q hq => mutex_exclusive threeProcs (bootedTracked (Fin 3)) y createAndLock
      ⟨fun _ => rfl, fun _ => rfl, fun _ _ => rfl⟩ hrun 0 q 0 howns hq⟩

/-- The second process waits, the third signals, and `cv_wait` returns `1` while the first
still owns the mutex. -/
theorem mutex_owned_twice :
    ∃ y, Run (TrackedStep threeProcs) (bootedTracked (Fin 3))
        (createAndLock ++ (.call 1 (.cvWait 0) :: steps 1 9) ++
          (.call 2 (.cvSignal 0) :: steps 2 7 ++ [.ret 2 1]) ++ steps 1 7 ++ [.ret 1 1]) y ∧
      y.owns 0 0 = true ∧ y.owns 1 0 = true := by
  exact Run.found id _ (by decide +kernel) fun _ _ h => h

end Xv6.Sync
