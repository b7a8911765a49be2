import Xv6.Ptable.Life

/-! # The machine takes moves of the life cycle -/

namespace Xv6.Ptable

variable {κ : Type} [DecidableEq κ]

variable {s t : State κ} {c : κ} {p : Slot}

/-- What a step means for the history of processes. -/
def event (s : State κ) : Label κ → Event
  | .forkAlloc c =>
    match (s.cpus c).proc, s.freeSlot with
    | some p, some np => .alloc p np
    | _, _ => .quiet
  | .forkInherit c =>
    match (s.cpus c).proc.map fun p => (p, s.doing p) with
    | some (p, .initialised np) => .inherit p np
    | _ => .quiet
  | .createAndEnter c =>
    match (s.cpus c).proc with
    | some p => if (s.procs p).inContainer ≠ 0 then .quiet else .enter p
    | none => .quiet
  | .exitFinish c =>
    match (s.cpus c).proc with
    | some p => .exit p
    | none => .quiet
  | .waitScan c =>
    match (s.cpus c).proc.bind fun p => (s.zombieChild p).map fun q => (p, q) with
    | some (p, q) => .reap p q
    | none => .quiet
  | _ => .quiet

/-! ## Guards -/

theorem onCpu_eq_some {f : Slot → Option (State κ)} :
    s.onCpu c f = some t ↔ ∃ p, s.core.Runs c p ∧ f p = some t := by
  unfold State.onCpu Core.Runs
  cases h : (s.cpus c).proc with
  | none => simp [State.core, h]
  | some p =>
    by_cases hp : s.parked p = .onCpu
    · simp [State.core, h, hp]
    · simp [State.core, h, hp]

theorem call_eq_some {f : Slot → Option (State κ)} :
    s.call c f = some t ↔ ∃ p, s.core.Runs c p ∧ s.doing p = .user ∧ f p = some t := by
  unfold State.call
  rw [onCpu_eq_some]
  refine exists_congr fun p => and_congr_right fun _ => ?_
  by_cases hp : s.doing p = .user <;> simp [hp]

omit [DecidableEq κ] in
theorem locked_eq_some {f : Option (State κ)} : s.locked f = some t ↔ s.lock = none ∧ f = some t := by
  unfold State.locked
  by_cases h : s.lock = none <;> simp [h]

theorem call_locked {f : Slot → State κ} (h : s.call c (fun p => s.locked (some (f p))) = some t) :
    ∃ p, s.core.Runs c p ∧ s.doing p = .user ∧ s.lock = none ∧ f p = t := by
  obtain ⟨p, on, user, h⟩ := call_eq_some.mp h
  obtain ⟨free, h⟩ := locked_eq_some.mp h
  exact ⟨p, on, user, free, Option.some.inj h⟩

/-! ## The scheduler -/

theorem core_switchOut (w : Parked) : (s.switchOut c p w).core = s.core.out c p w := rfl

omit [DecidableEq κ] in
theorem core_update_with (s : State κ) (p : Slot) {f : Proc → Proc} (g : Life → Life)
    (h : (f (s.procs p)).life = g (s.procs p).life) (lock : Option κ) (cpus : κ → Cpu)
    (doing : Slot → Doing) (parked : Slot → Parked) :
    { s.update p f with lock := lock, cpus := cpus, doing := doing, parked := parked }.core =
      { s.core with
        life := s.core.entry p g
        lock := lock
        cpus := cpus
        doing := doing
        parked := parked } := by
  rw [← s.life_update p g h]
  rfl

theorem core_dispatch (pc : CpuPc) :
    (s.dispatch c p pc).core =
      { s.core with
        life := s.core.entry p fun x => { x with state := .running }
        cpus := Function.update s.core.cpus c ⟨some p, pc⟩
        lock := some c } :=
  core_update_with s p (fun x => { x with state := .running }) rfl ..

theorem move_schedule (h : s.schedule c = some t) : Move s.core .quiet t.core := by
  unfold State.schedule at h
  split at h
  · rename_i hidle
    have idle : (s.core.cpus c).pc.Idle := by
      have : (s.core.cpus c).pc = .idle := hidle
      rw [this]
      trivial
    obtain ⟨-, h⟩ := locked_eq_some.mp h
    dsimp only at h
    split at h
    · cases h
      exact .goto idle trivial
    split at h
    · rename_i p hq ready
      cases h
      rw [core_dispatch]
      exact .dispatch idle ready id
    · cases h
      exact .goto idle trivial
  · cases h

theorem move_scan (h : s.scan c = some t) : Move s.core .quiet t.core := by
  unfold State.scan at h
  split at h
  · rename_i i hpc
    have idle : (s.core.cpus c).pc.Idle := by
      have : (s.core.cpus c).pc = .scan i := hpc
      rw [this]
      trivial
    split at h
    · split at h
      · split at h
        · rename_i ready
          cases h
          rw [core_dispatch]
          exact .dispatch idle ready id
        · cases h
          exact .goto idle trivial
      · cases h
        exact .goto idle trivial
    · cases h
  · cases h

theorem move_resume (h : s.resume c = some t) : Move s.core .quiet t.core := by
  unfold State.resume at h
  split at h
  · cases h
  rename_i p on
  split at h
  · split at h
    iterate 3
      · rename_i hp
        cases h
        exact .shift on (by simp [State.core, hp, Parked.Plain]) trivial
    · cases h
      rw [core_update_with s p (fun x => { x with chan := none }) rfl]
      exact .awake on trivial
    · cases h
      rw [core_update_with s p (fun x => { x with chan := none }) rfl]
      exact .awake on trivial
    · cases h
  · cases h

/-! ## `fork` -/

theorem move_forkAlloc (h : Step s (.forkAlloc c) t) : Move s.core (event s (.forkAlloc c)) t.core := by
  obtain ⟨p, on, user, -, rfl⟩ := call_locked h
  have hp : (s.cpus c).proc = some p := on.1
  unfold State.forkAlloc
  cases hfind : s.freeSlot with
  | none =>
    simp only [event, hp, hfind]
    exact .stutter
  | some np =>
    have free := unused_of_freeSlot hfind
    simp only [event, hp, hfind]
    exact (Move.alloc (n := s.nextpid) on user free).of_eq
      (core_update_with s np (fun x => { x with state := .embryo, pid := s.nextpid }) rfl ..)

theorem move_forkFail {np : Slot} (on : s.core.Runs c p)
    (forking : s.doing p = .allocated np ∨ s.doing p = .inherited np) :
    Move s.core .quiet (s.forkFail p np).core := by
  unfold State.forkFail
  rw [core_update_with s np (fun x => { x with state := .unused }) rfl]
  exact .fail on forking

omit [DecidableEq κ] in
theorem core_forkEnqueue (s : State κ) (par np : Slot) : (s.forkEnqueue par np).core = s.core := by
  unfold State.forkEnqueue
  dsimp only
  split
  · rw [State.core_fpEnqueue, State.core_update_id]
    rfl
  · split
    · rw [State.core_hfsEnqueue, State.core_update_id]
      rfl
    · rfl

theorem move_forkFinish {np : Slot} (on : s.core.Runs c p) (forking : s.doing p = .copied np) :
    Move s.core .quiet (s.forkFinish p np).core := by
  have hcore : (s.forkFinish p np).core =
      { s.core with
        life := s.core.entry np fun x => { x with state := .runnable }
        doing := Function.update (Function.update s.core.doing np .user) p .user
        parked := Function.update s.core.parked np .newborn } := by
    have hlife : (s.update np fun x => { x with state := .runnable }).core.life =
        s.core.entry np fun x => { x with state := .runnable } := s.life_update np _ rfl
    have hrest := core_forkEnqueue (s.update np fun x => { x with state := .runnable }) p np
    have hfinish : (s.forkFinish p np).core =
        { ((s.update np fun x => { x with state := .runnable }).forkEnqueue p np).core with
          doing := Function.update (Function.update s.core.doing np .user) p .user
          parked := Function.update s.core.parked np .newborn } := rfl
    rw [hfinish, hrest, ← hlife]
    rfl
  rw [hcore]
  exact .finish on forking

theorem move_fork {a : Label κ} (h : Step s a t)
    (ha : a = .forkKstackFail c ∨ a = .forkInit c ∨ a = .forkInherit c ∨ a = .forkCopyFail c ∨
      a = .forkCopy c ∨ a = .forkFinish c) : Move s.core (event s a) t.core := by
  rcases ha with rfl | rfl | rfl | rfl | rfl | rfl
  all_goals
    obtain ⟨p, on, h⟩ := onCpu_eq_some.mp h
    have hp : (s.cpus c).proc = some p := on.1
    split at h
  all_goals try cases h
  · rename_i np forking
    exact move_forkFail on (.inl forking)
  · rename_i np forking
    exact (Move.init on forking).of_eq
      (core_update_with s np (fun x => { x with inContainer := 0, nameSpace := 0 }) rfl ..)
  · rename_i np forking
    have hevent : event s (.forkInherit c) = .inherit p np := by simp [event, hp, forking]
    rw [hevent]
    exact (Move.inherit on forking).of_eq (core_update_with s np (fun x =>
      { x with
        inContainer := (s.procs p).inContainer
        nameSpace := (s.procs p).nameSpace }) rfl ..)
  · rename_i np forking
    exact move_forkFail on (.inr forking)
  · rename_i np forking
    exact (Move.adopt on forking).of_eq
      (core_update_with s np (fun x => { x with parent := some p, ofile := _ }) rfl ..)
  · rename_i np forking
    obtain ⟨-, h⟩ := locked_eq_some.mp h
    cases h
    exact move_forkFinish on forking

/-! ## `exit`, `wait` and the other calls -/

theorem move_waitScan (h : s.waitScan c = some t) : Move s.core (event s (.waitScan c)) t.core := by
  unfold State.waitScan at h
  split at h
  · cases h
  rename_i p on
  split at h
  · rename_i hscan
    cases hz : s.zombieChild p with
    | some q =>
      simp only [hz] at h
      cases h
      have hfound := zombieChild_some hz
      simp only [event, on, hz, Option.bind_some, Option.map_some]
      exact (Move.reap on hscan.2 hfound.2 hfound.1).of_eq (core_update_with s q
        (fun x => { x with state := .unused, pid := 0, parent := none }) rfl ..)
    | none =>
      simp only [hz] at h
      simp only [event, on, hz, Option.bind_some, Option.map_none]
      split at h
      · cases h
        have hparked : s.core.parked p = .scanning := hscan.2
        exact .shift on (by rw [hparked]; trivial) trivial
      cases h
      rw [core_switchOut, s.core_update p
        (fun x => { x with chan := some (.proc p), state := .sleeping }) rfl]
      refine .sleep on (.inr ⟨rfl, rfl, fun q hpar hdead => ?_⟩)
      have hnone := List.find?_eq_none.mp hz q (List.mem_finRange q)
      simp only [Bool.and_eq_true, beq_iff_eq] at hnone
      exact hnone ⟨hpar, hdead⟩
  · cases h

omit [DecidableEq κ] in
theorem core_prioSet (pid priority word : Int) :
    (s.prioSet p pid priority word).core = s.core := by
  unfold State.prioSet
  have hcur : (s.update p fun x => { x with queueType := 0 }).core = s.core := by
    rw [State.core_update_id]
    rfl
  have hset : ∀ (u : State κ) q, (u.update q fun x => { x with fpPriority := priority }).core = u.core := by
    intro u q
    rw [State.core_update_id]
    rfl
  split
  · rfl
  dsimp only
  generalize s.update p (fun x => { x with queueType := 0 }) = u at hcur
  split
  · exact hcur
  split
  · rw [hset, hcur]
  split
  · exact hcur
  · split
    · rw [hset, hcur]
    · exact hcur

theorem move_yield (on : s.core.Runs c p) : Move s.core .quiet ((s.yield p).switchOut c p .yielded).core := by
  have hup : (s.update p fun x => { x with state := .runnable }).core =
      s.core.set p fun x => { x with state := .runnable } := s.core_update p _ rfl
  have hcore : (s.yield p).core = s.core.set p fun x => { x with state := .runnable } := by
    unfold State.yield
    dsimp only
    split
    · rw [State.core_hfsEnqueue, State.core_update_id, hup]
      rfl
    · split
      · rw [State.core_fpEnqueue, hup]
      · exact hup
  rw [core_switchOut, hcore]
  exact .yield on (.inl ⟨rfl, rfl⟩)

theorem wakes_requeued {f : Proc → Proc}
    (h : (f (s.procs p)).life = (s.procs p).life ∨ (s.procs p).state = .sleeping ∧
      (f (s.procs p)).life = { (s.procs p).life with state := .runnable }) :
    Move s.core .quiet (s.update p f).core := by
  rw [s.core_update p (fun _ => (f (s.procs p)).life) rfl]
  refine .wake fun q => ?_
  by_cases hq : q = p
  · subst hq
    rw [Core.entry_apply, if_pos rfl]
    exact h
  · rw [Core.entry_apply, if_neg hq]
    exact .inl rfl

theorem move_kill (s : State κ) (pid : Int) : Move s.core .quiet (s.kill pid).core := by
  unfold State.kill
  split
  · exact .stutter
  rename_i p _
  rw [State.core_requeue]
  refine wakes_requeued ?_
  by_cases hs : (s.procs p).state = .sleeping
  · exact .inr ⟨hs, by simp [Proc.life, hs]⟩
  · exact .inl (by simp [Proc.life, hs])

theorem move_cvSignal (s : State κ) (pid : Int) : Move s.core .quiet (s.cvSignal pid).core := by
  unfold State.cvSignal
  split
  · exact .stutter
  rename_i p hfind
  rw [State.core_fpEnqueue]
  have hfound := List.find?_some hfind
  simp only [Bool.and_eq_true, beq_iff_eq] at hfound
  exact wakes_requeued (.inr ⟨hfound.2, rfl⟩)

omit [DecidableEq κ] in
theorem ceLoop_fresh {n : Nat} {start id : Int} (h : s.ceLoop n start = some id) : s.taken id = false := by
  induction n generalizing start with
  | zero => cases h
  | succ n ih =>
    unfold State.ceLoop at h
    split at h
    · exact ih h
    · rename_i hfree
      cases h
      simpa using hfree

omit [DecidableEq κ] in
theorem taken_eq_false {id : Int} (h : s.taken id = false) (q : Slot) (hq : (s.procs q).state ≠ .unused) :
    (s.procs q).nameSpace ≠ id := by
  have := List.any_eq_false.mp h q (List.mem_finRange q)
  intro hid
  simp [hq, hid] at this

theorem move_createAndEnter (h : Step s (.createAndEnter c) t) :
    Move s.core (event s (.createAndEnter c)) t.core := by
  obtain ⟨p, on, user, h⟩ := call_eq_some.mp h
  obtain ⟨-, h⟩ := locked_eq_some.mp h
  have hp : (s.cpus c).proc = some p := on.1
  unfold State.doCe at h
  simp only [event, hp]
  split at h
  · rename_i hin
    cases h
    rw [if_pos hin]
    exact .stutter
  · rename_i hin
    rw [if_neg hin]
    obtain ⟨id, hid, rfl⟩ := Option.map_eq_some_iff.mp h
    exact (Move.enter on user (not_not.mp hin) (taken_eq_false (ceLoop_fresh hid))).of_eq
      (core_update_with s p (fun x => { x with inContainer := 1, nameSpace := id }) rfl ..)

theorem move_store (on : s.core.Runs c p) (user : s.doing p = .user) (w : Store) :
    Move s.core .quiet (s.update p w.apply).core := by
  have hlife : (w.apply (s.procs p)).life =
      { (s.procs p).life with ofile := (w.apply (s.procs p)).ofile } := by
    cases w <;> rfl
  rw [s.core_update p (fun x => { x with ofile := (w.apply (s.procs p)).ofile }) hlife]
  exact .store on user

/-! ## Every step -/

theorem move_of_step {a : Label κ} (h : Step s a t) : Move s.core (event s a) t.core := by
  cases a with
  | schedule c => exact move_schedule h
  | scan c => exact move_scan h
  | resume c => exact move_resume h
  | forkAlloc c => exact move_forkAlloc h
  | forkKstackFail c => exact move_fork h (.inl rfl)
  | forkInit c => exact move_fork h (.inr (.inl rfl))
  | forkInherit c => exact move_fork h (.inr (.inr (.inl rfl)))
  | forkCopyFail c => exact move_fork h (.inr (.inr (.inr (.inl rfl))))
  | forkCopy c => exact move_fork h (.inr (.inr (.inr (.inr (.inl rfl)))))
  | forkFinish c => exact move_fork h (.inr (.inr (.inr (.inr (.inr rfl)))))
  | exitPrepare c =>
    obtain ⟨p, on, user, h⟩ := call_eq_some.mp h
    split at h
    · cases h
    · rename_i mortal
      cases h
      exact (Move.prepare on user mortal).of_eq
        (core_update_with s p (fun x => { x with ofile := fun _ => none }) rfl ..)
  | exitFinish c =>
    obtain ⟨p, on, h⟩ := onCpu_eq_some.mp h
    have hp : (s.cpus c).proc = some p := on.1
    split at h
    · rename_i exiting
      obtain ⟨-, h⟩ := locked_eq_some.mp h
      cases h
      obtain ⟨l, left, hcore⟩ := exitLocked_spec s p
      simp only [event, hp]
      rw [core_switchOut, hcore]
      exact .exit on exiting left
    · cases h
  | wait c | cvWaitFull c =>
    obtain ⟨p, on, -, -, rfl⟩ := call_locked h
    exact .shift on.1 (by rw [on.2]; trivial) trivial
  | waitScan c => exact move_waitScan h
  | sleep c chan =>
    obtain ⟨p, on, -, -, rfl⟩ := call_locked h
    rw [core_switchOut, s.core_update p
      (fun x => { x with chan := some (.other chan), state := .sleeping }) rfl]
    exact .sleep on.1 (.inl rfl)
  | yield c =>
    obtain ⟨p, on, h⟩ := onCpu_eq_some.mp h
    obtain ⟨-, h⟩ := locked_eq_some.mp h
    cases h
    exact move_yield on
  | wakeup chan =>
    obtain ⟨-, h⟩ := locked_eq_some.mp h
    rw [← Option.some.inj h, State.core_wakeup1]
    exact .wake fun q => wakeLife_cases _ _
  | kill pid =>
    obtain ⟨-, h⟩ := locked_eq_some.mp h
    cases h
    exact move_kill s pid
  | prioSet c pid priority word =>
    obtain ⟨p, -, -, -, rfl⟩ := call_locked h
    rw [core_prioSet]
    exact .stutter
  | cvWait c =>
    obtain ⟨p, on, -, -, rfl⟩ := call_locked h
    rw [core_switchOut, s.core_update p (fun x => { x with state := .sleeping }) rfl]
    exact .yield on (.inr ⟨rfl, rfl⟩)
  | cvSignal pid =>
    obtain ⟨-, h⟩ := locked_eq_some.mp h
    cases h
    exact move_cvSignal s pid
  | createAndEnter c => exact move_createAndEnter h
  | store c w =>
    obtain ⟨p, on, user, h⟩ := call_eq_some.mp h
    cases h
    exact move_store on user w

end Xv6.Ptable
