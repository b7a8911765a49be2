import Xv6.Ptable.Placement

/-! # The contract of `prio_set`

A process may set the priority of itself and of its descendants, not above its own. The code looks
at the parent of the first slot with the `pid` only, takes a `pid` that it does not find for a
success, and puts the caller under the fixed-priority policy before its checks.
-/

namespace Xv6.Ptable

open Lib

variable {κ : Type}

variable {t : State κ} {q : Slot}

namespace State

/-- The loop of `prio_set` over the table. The read through a null `parent` is an error. -/
def prioSetOther (s : State κ) (p : Slot) (pid priority : Int) : Except String (Int × State κ) :=
  match s.findPid pid with
  | none => .ok (0, s)
  | some q =>
    match (s.procs q).parent with
    | none => .error "null parent"
    | some a =>
      if (s.procs a).pid = (s.procs p).pid then
        .ok (0, s.update q fun x => { x with fpPriority := priority })
      else .ok (-1, s)

/-- `prio_set(pid, priority)` by `p`, with what it returns. -/
def prioSetCall (s : State κ) (p : Slot) (pid priority : Int) : Except String (Int × State κ) :=
  if priority > prioMax ∨ priority < 0 then .ok (-1, s)
  else
    let s := s.update p fun x => { x with queueType := 0 }
    if (s.procs p).fpPriority > priority then .ok (-1, s)
    else if (s.procs p).pid = pid then .ok (0, s.update p fun x => { x with fpPriority := priority })
    else s.prioSetOther p pid priority

/-- `q` is `p` or a descendant of `p` along parent pointers. -/
def Descends (s : State κ) (p q : Slot) : Prop :=
  Relation.ReflTransGen (fun a b => (s.procs a).parent = some b) q p

/-- `p` may give `q`, the process with the `pid`, the priority. -/
structure Entitled (s : State κ) (p : Slot) (pid priority : Int) (q : Slot) : Prop where
  used : (s.procs q).state ≠ .unused
  pid : (s.procs q).pid = pid
  descends : s.Descends p q
  range : 0 ≤ priority ∧ priority ≤ prioMax
  order : (s.procs p).fpPriority ≤ priority

/-- What `prio_set` promises, and the step of the table leaves: it succeeds where it may, and changes
the priority and the policy of the process with the `pid` only; elsewhere it fails and changes
nothing. -/
def KeepsContract (s : State κ) (p : Slot) (pid priority : Int) : Prop :=
  ∃ r t, s.prioSetCall p pid priority = .ok (r, t) ∧ (∀ word, s.prioSet p pid priority word = t) ∧
    (r = 0 ↔ ∃ q, s.Entitled p pid priority q) ∧
    (r = 0 → ∃ q policy, s.Entitled p pid priority q ∧
      t = s.update q fun x => { x with fpPriority := priority, queueType := policy }) ∧
    (r ≠ 0 → r = -1 ∧ t = s)

/-- Where the code keeps the contract: the priority is out of range, or the caller names itself, or
it is under the fixed-priority policy already and the first slot with the `pid` has a parent, which
has the caller's `pid` if the caller may, and another one if it may not. -/
def PrioSetSafe (s : State κ) (p : Slot) (pid priority : Int) : Prop :=
  if priority > prioMax ∨ priority < 0 then True
  else if (s.procs p).fpPriority > priority then (s.procs p).queueType = 0
  else if (s.procs p).pid = pid then True
  else (s.procs p).queueType = 0 ∧ ∃ q a, s.findPid pid = some q ∧ (s.procs q).parent = some a ∧
    if (s.procs a).pid = (s.procs p).pid then ∃ t, s.Entitled p pid priority t ∧
      (t = q ∨ (s.procs q).fpPriority = priority ∧ (s.procs t).fpPriority = priority)
    else ¬ ∃ t, s.Entitled p pid priority t

end State

section Branches

variable {s : State κ} {p : Slot} {pid priority : Int}

theorem update_eq_self (s : State κ) (p : Slot) {f : Proc → Proc} (h : f (s.procs p) = s.procs p) :
    s.update p f = s := by
  unfold State.update
  rw [h, Function.update_eq_self]

/-- What `prio_set` returns and leaves is the step of the process table. -/
theorem prioSetCall_ok {r : Int} (h : s.prioSetCall p pid priority = .ok (r, t)) (word : Int) :
    s.prioSet p pid priority word = t := by
  unfold State.prioSetCall State.prioSetOther at h
  unfold State.prioSet State.parentPid
  grind

/-- A failure leaves the state as it was only where the policy of the caller stays. -/
theorem policy_eq_iff (s : State κ) (p : Slot) :
    s.underFp p = s ↔ (s.procs p).queueType = 0 := by
  constructor
  · intro heq
    rw [← heq, State.update_procs, if_pos rfl]
  · intro hzero
    apply update_eq_self
    rw [← hzero]

theorem findPid_pid (h : s.findPid pid = some q) : (s.procs q).pid = pid := by
  unfold State.findPid at h
  have hpid := List.find?_some h
  exact beq_iff_eq.mp hpid

theorem findPid_none (h : s.findPid pid = none) (q : Slot) : (s.procs q).pid ≠ pid := by
  unfold State.findPid at h
  rw [List.find?_eq_none] at h
  intro heq
  exact h q (List.mem_finRange q) (beq_iff_eq.mpr heq)

theorem prioSetCall_eq (s : State κ) (p : Slot) (pid priority : Int) : s.prioSetCall p pid priority =
    if priority > prioMax ∨ priority < 0 then .ok (-1, s)
    else if (s.procs p).fpPriority > priority then .ok (-1, s.underFp p)
    else if (s.procs p).pid = pid then .ok (0, (s.underFp p).update p fun x => { x with fpPriority := priority })
    else (s.underFp p).prioSetOther p pid priority := by
  obtain ⟨hpid, -, hfp⟩ := policy_procs s p p
  unfold State.prioSetCall
  dsimp only
  rw [hpid, hfp]

theorem prioSetOther_none (hfind : s.findPid pid = none) :
    (s.underFp p).prioSetOther p pid priority = .ok (0, s.underFp p) := by
  unfold State.prioSetOther
  rw [policy_findPid, hfind]

theorem prioSetOther_null (hfind : s.findPid pid = some q) (hparent : (s.procs q).parent = none) :
    (s.underFp p).prioSetOther p pid priority = .error "null parent" := by
  unfold State.prioSetOther
  rw [policy_findPid, hfind]
  dsimp only
  rw [(policy_procs s p q).2.1, hparent]

theorem contract_of_failure (h : s.prioSetCall p pid priority = .ok (-1, t)) :
    s.KeepsContract p pid priority ↔ (¬ ∃ q, s.Entitled p pid priority q) ∧ t = s := by
  unfold State.KeepsContract
  constructor
  · intro hkeeps
    obtain ⟨r, t', hcall, -, hiff, -, hfail⟩ := hkeeps
    rw [h] at hcall
    cases hcall
    exact ⟨fun hq => absurd (hiff.mpr hq) (by decide), (hfail (by decide)).2⟩
  · intro hkeeps
    refine ⟨-1, t, h, prioSetCall_ok h, ?_, ?_, ?_⟩
    · exact iff_of_false (by decide) hkeeps.1
    · exact fun hzero => absurd hzero (by decide)
    · exact fun _ => ⟨rfl, hkeeps.2⟩

theorem contract_of_success (h : s.prioSetCall p pid priority = .ok (0, t)) :
    s.KeepsContract p pid priority ↔ ∃ q policy, s.Entitled p pid priority q ∧
      t = s.update q fun x => { x with fpPriority := priority, queueType := policy } := by
  unfold State.KeepsContract
  constructor
  · intro hkeeps
    obtain ⟨r, t', hcall, -, -, hdone, -⟩ := hkeeps
    rw [h] at hcall
    cases hcall
    exact hdone rfl
  · intro hdone
    refine ⟨0, t, h, prioSetCall_ok h, ?_, ?_, ?_⟩
    · obtain ⟨q, policy, hq, -⟩ := hdone
      exact iff_of_true rfl ⟨q, hq⟩
    · exact fun _ => hdone
    · exact fun hne => absurd rfl hne

theorem contract_of_error {e : String} (h : s.prioSetCall p pid priority = .error e) :
    ¬ s.KeepsContract p pid priority := by
  intro hkeeps
  obtain ⟨r, t, hcall, -⟩ := hkeeps
  rw [h] at hcall
  cases hcall

theorem updated_iff {t : Slot} {policy : Int} (htp : t ≠ p) (hqp : q ≠ p) :
    ((s.underFp p).update q fun x => { x with fpPriority := priority }) =
        (s.update t fun x => { x with fpPriority := priority, queueType := policy }) ↔
      (s.procs p).queueType = 0 ∧ (s.procs t).queueType = policy ∧
        (t = q ∨ (s.procs q).fpPriority = priority ∧ (s.procs t).fpPriority = priority) := by
  constructor
  · intro heq
    have hat : ∀ x : Slot, _ := fun x => congrArg (fun u : State κ => u.procs x) heq
    have hp := congrArg Proc.queueType (hat p)
    have ht := hat t
    have hq := congrArg Proc.fpPriority (hat q)
    simp only [State.update_procs, if_neg hqp.symm, if_neg htp.symm, if_pos] at hp
    simp only [State.update_procs, if_neg htp, if_pos] at ht
    simp only [State.update_procs, if_neg hqp, if_pos] at hq
    refine ⟨hp.symm, ?_, ?_⟩
    · have hpolicy := congrArg Proc.queueType ht
      split at hpolicy
      · exact hpolicy
      · exact hpolicy
    by_cases htq : t = q
    · exact .inl htq
    · right
      rw [if_neg (Ne.symm htq)] at hq
      rw [if_neg htq] at ht
      exact ⟨hq.symm, congrArg Proc.fpPriority ht⟩
  · intro h
    obtain ⟨hp, rfl, hcase⟩ := h
    rw [(policy_eq_iff s p).mpr hp]
    obtain rfl | ⟨hq, ht⟩ := hcase
    · rfl
    · rw [update_eq_self s q (by rw [← hq]), update_eq_self s t (by rw [← ht])]

end Branches

/-- `prio_set` keeps its contract exactly where `PrioSetSafe` says. -/
theorem prioSet_contract (s : State κ) (p : Slot) (hrun : (s.procs p).state = .running) (pid priority : Int) :
    s.KeepsContract p pid priority ↔ s.PrioSetSafe p pid priority := by
  have hcall := prioSetCall_eq s p pid priority
  unfold State.PrioSetSafe
  by_cases hout : priority > prioMax ∨ priority < 0
  · rw [if_pos hout] at hcall ⊢
    rw [contract_of_failure hcall]
    refine iff_of_true ⟨?_, rfl⟩ trivial
    intro hq
    obtain ⟨q, hq⟩ := hq
    have := hq.range
    omega
  rw [if_neg hout] at hcall ⊢
  by_cases habove : (s.procs p).fpPriority > priority
  · rw [if_pos habove] at hcall ⊢
    rw [contract_of_failure hcall, policy_eq_iff]
    refine and_iff_right ?_
    intro hq
    obtain ⟨q, hq⟩ := hq
    have := hq.order
    omega
  rw [if_neg habove] at hcall ⊢
  by_cases hself : (s.procs p).pid = pid
  · rw [if_pos hself] at hcall ⊢
    rw [contract_of_success hcall]
    refine iff_of_true ⟨p, 0, ⟨?_, hself, .refl, by omega, by omega⟩, ?_⟩ trivial
    · rw [hrun]
      decide
    · unfold State.underFp State.update
      simp only [Function.update_self, Function.update_idem]
  rw [if_neg hself] at hcall ⊢
  -- the slots are searched for the `pid`
  have hne : ∀ {q}, (s.procs q).pid = pid → q ≠ p := by
    intro q hq heq
    subst heq
    exact hself hq
  cases hfind : s.findPid pid with
  | none =>
    rw [contract_of_success (hcall.trans (prioSetOther_none hfind))]
    refine iff_of_false ?_ ?_
    · intro hdone
      obtain ⟨q, -, hq, -⟩ := hdone
      exact findPid_none hfind q hq.pid
    · intro hsafe
      obtain ⟨-, q, a, hq, -⟩ := hsafe
      cases hq
  | some q =>
    obtain ⟨-, hparentq, -⟩ := policy_procs s p q
    have hqp := hne (findPid_pid hfind)
    cases hparent : (s.procs q).parent with
    | none =>
      refine iff_of_false (contract_of_error (hcall.trans (prioSetOther_null hfind hparent))) ?_
      intro hsafe
      obtain ⟨-, q', a, hq', ha, -⟩ := hsafe
      cases hq'
      rw [hparent] at ha
      cases ha
    | some a =>
      rw [State.prioSetOther, policy_findPid, hfind] at hcall
      dsimp only at hcall
      rw [hparentq, hparent] at hcall
      dsimp only at hcall
      rw [(policy_procs s p a).1, (policy_procs s p p).1] at hcall
      simp only [Option.some.injEq, exists_and_left, exists_eq_left', hparent]
      by_cases heq : (s.procs a).pid = (s.procs p).pid
      · rw [if_pos heq] at hcall
        rw [if_pos heq, contract_of_success hcall]
        constructor
        · intro hdone
          obtain ⟨t, policy, ht, hupdate⟩ := hdone
          obtain ⟨hzero, -, hcase⟩ := (updated_iff (hne ht.pid) hqp).mp hupdate
          exact ⟨hzero, t, ht, hcase⟩
        · intro hsafe
          obtain ⟨hzero, t, ht, hcase⟩ := hsafe
          exact ⟨t, _, ht, (updated_iff (hne ht.pid) hqp).mpr ⟨hzero, rfl, hcase⟩⟩
      · rw [if_neg heq] at hcall
        rw [if_neg heq, contract_of_failure hcall, policy_eq_iff, and_comm]

/-- `init` may set its own priority. -/
theorem prioSet_contract_init : ∃ s, Run Step (booted (Fin 1) 1 fun _ _ => 0) (initRuns 0) s ∧
    (s.procs 0).state = .running ∧ s.KeepsContract 0 1 5 := by
  refine Run.found id (fun s => (s.procs 0).state = .running ∧ (s.procs 0).pid = 1 ∧
    (s.procs 0).fpPriority = 0) (by decide +kernel) ?_
  rintro s - ⟨hrun, hpid, hfp⟩
  refine ⟨hrun, (prioSet_contract s 0 hrun 1 5).mpr ?_⟩
  unfold State.PrioSetSafe
  rw [if_neg (by decide), if_neg (by rw [hfp]; decide), if_pos hpid]
  trivial

/-- A `pid` that no process has is a success, and `pid` `0` a read through a null pointer. -/
theorem prioSet_unknown_pid : ∃ s, Run Step (booted (Fin 1) 1 fun _ _ => 0) (initRuns 0) s ∧
    (s.procs 0).state = .running ∧ (∃ t, s.prioSetCall 0 99 5 = .ok (0, t)) ∧
    (∀ q, (s.procs q).pid ≠ 99) ∧ ¬ s.KeepsContract 0 99 5 ∧
    s.prioSetCall 0 0 5 = .error "null parent" ∧ ¬ s.KeepsContract 0 0 5 := by
  refine Run.found id (fun s => ((s.procs 0).state = .running ∧ (s.procs 0).pid = 1 ∧
    (s.procs 0).fpPriority = 0) ∧ s.findPid 99 = none ∧ s.findPid 0 = some 1 ∧
      (s.procs 1).parent = none) (by decide +kernel) ?_
  rintro s - ⟨⟨hrun, hpid, hfp⟩, hnone, hzero, hparent⟩
  have hbelow : ¬ (s.procs 0).fpPriority > 5 := by
    rw [hfp]
    decide
  have hloop : ∀ {pid}, (s.procs 0).pid ≠ pid → s.prioSetCall 0 pid 5 = (s.underFp 0).prioSetOther 0 pid 5 := by
    intro pid hother
    rw [prioSetCall_eq, if_neg (by decide), if_neg hbelow, if_neg hother]
  have hcall := (hloop (by rw [hpid]; decide)).trans (prioSetOther_none hnone)
  have hnull := (hloop (by rw [hpid]; decide)).trans (prioSetOther_null hzero hparent)
  refine ⟨hrun, ⟨_, hcall⟩, findPid_none hnone, ?_, hnull, contract_of_error hnull⟩
  rw [contract_of_success hcall]
  intro hdone
  obtain ⟨q, -, hq, -⟩ := hdone
  exact findPid_none hnone q hq.pid

end Xv6.Ptable
