import Mathlib.Data.Finset.Basic
import Xv6.Lib.Transition

/-! # Threads that share memory under spin locks

A program is a control-flow graph of small instructions: take a lock, give it back, access
shared memory once, hand the processor over, return. Threads interleave at every
instruction. A lock annotation gives each program point the locks the current call has
taken; where the annotation agrees with the code, a thread at a point holds exactly the
locks it held at the call and those of the annotation.
-/

namespace Xv6.Lib.Spin

open Function

/-- One instruction, over locks `L`, program points `Pc` and memory `M`. -/
inductive Instr (L Pc M : Type)
  | acquire (l : L) (next : Pc)
  | release (l : L) (next : Pc)
  | access (f : M → M) (next : M → Pc)
  /-- Give up the processor together with `l`; allowed with no other lock held. -/
  | sched (l : L) (next : Pc)
  /-- Back on a processor, once `ready`, with `l` handed over. -/
  | resume (l : L) (ready : M → Bool) (f : M → M) (next : Pc)
  | ret (r : Int)
  /-- No defined continuation. -/
  | stop

def Instr.target {L Pc M : Type} (m : M) : Instr L Pc M → Option Pc
  | .acquire _ next | .release _ next | .sched _ next | .resume _ _ _ next => some next
  | .access _ next => some (next m)
  | .ret _ | .stop => none

def Instr.effect {L Pc M : Type} (m : M) : Instr L Pc M → M
  | .access f _ | .resume _ _ f _ => f m
  | _ => m

structure Program (ι C L Pc M : Type) where
  entry : C → Pc
  code : ι → Pc → Instr L Pc M

/-- `pc p = none` while `p` is outside any call; `ncli` counts the locks a thread holds. -/
structure State (ι L Pc M : Type) where
  mem : M
  owner : L → Option ι
  ncli : ι → Nat
  pc : ι → Option Pc

inductive Label (ι C : Type)
  | call (p : ι) (c : C)
  | step (p : ι)
  | ret (p : ι) (r : Int)

variable {ι C L Pc M : Type} [DecidableEq ι] {s t t' : State ι L Pc M} {p q : ι} {c next k : Pc}

def State.goto (s : State ι L Pc M) (p : ι) (next : Pc) : State ι L Pc M :=
  { s with pc := update s.pc p (some next) }

@[simp] theorem goto_mem : (s.goto p c).mem = s.mem := rfl

@[simp] theorem goto_owner : (s.goto p c).owner = s.owner := rfl

@[simp] theorem goto_pc_self : (s.goto p c).pc p = some c := update_self ..

theorem goto_pc_of_ne (h : q ≠ p) : (s.goto p c).pc q = s.pc q := update_of_ne h ..

theorem pc_of_leave {f : ι → Option Pc} {p q : ι} {k : Pc}
    (h : update f q none p = some k) : f p = some k := by
  by_cases hpq : p = q
  · subst hpq
    simp at h
  · rwa [update_of_ne hpq] at h

variable [DecidableEq L]

def State.take (s : State ι L Pc M) (p : ι) (l : L) : State ι L Pc M :=
  { s with
    owner := update s.owner l (some p)
    ncli := update s.ncli p (s.ncli p + 1) }

def State.give (s : State ι L Pc M) (p : ι) (l : L) : State ι L Pc M :=
  { s with
    owner := update s.owner l none
    ncli := update s.ncli p (s.ncli p - 1) }

/-- One instruction of `p`; `none` where the thread spins, sleeps or has stopped. -/
def exec (s : State ι L Pc M) (p : ι) : Instr L Pc M → Option (State ι L Pc M)
  | .acquire l next => if s.owner l = none then some ((s.take p l).goto p next) else none
  | .release l next => if s.owner l = some p then some ((s.give p l).goto p next) else none
  | .access f next => some ({ s with mem := f s.mem }.goto p (next s.mem))
  | .sched l next =>
    if s.owner l = some p ∧ s.ncli p = 1 then some ((s.give p l).goto p next) else none
  | .resume l ready f next =>
    if s.owner l = none ∧ ready s.mem = true then
      some (({ s with mem := f s.mem }.take p l).goto p next)
    else none
  | .ret _ => none
  | .stop => none

def step (P : Program ι C L Pc M) (s : State ι L Pc M) :
    Label ι C → Option (State ι L Pc M)
  | .call p c => if (s.pc p).isNone then some (s.goto p (P.entry c)) else none
  | .step p => (s.pc p).bind fun c => exec s p (P.code p c)
  | .ret p r => (s.pc p).bind fun c =>
    match P.code p c with
    | .ret r' => if r' = r then some { s with pc := update s.pc p none } else none
    | _ => none

abbrev Step (P : Program ι C L Pc M) (s : State ι L Pc M) (a : Label ι C)
    (t : State ι L Pc M) : Prop :=
  step P s a = some t

variable {P : Program ι C L Pc M} {a : Label ι C} {i : Instr L Pc M} {locks : Pc → Finset L} {base : L → Prop}
  {l : L}

theorem step_unique (h : Step P s a t) (h' : Step P s a t') : t = t' :=
  Option.some.inj (h.symm.trans h')

theorem run_unique {as : List (Label ι C)} (h : Run (Step P) s as t) (h' : Run (Step P) s as t') :
    t = t' := by
  refine Run.unique ?_ h h'
  intro s a t t' hs hs'
  exact step_unique hs hs'

/-! ## What a step can do -/

/-- The instruction a thread executed, with what let it through. -/
inductive Executed (s : State ι L Pc M) (p : ι) : Instr L Pc M → State ι L Pc M → Prop
  | acquire {l : L} {next : Pc} (free : s.owner l = none) :
      Executed s p (.acquire l next) ((s.take p l).goto p next)
  | release {l : L} {next : Pc} (mine : s.owner l = some p) :
      Executed s p (.release l next) ((s.give p l).goto p next)
  | access {f : M → M} {next : M → Pc} :
      Executed s p (.access f next) ({ s with mem := f s.mem }.goto p (next s.mem))
  | sched {l : L} {next : Pc} (mine : s.owner l = some p) :
      Executed s p (.sched l next) ((s.give p l).goto p next)
  | resume {l : L} {ready : M → Bool} {f : M → M} {next : Pc} (free : s.owner l = none)
      (isReady : ready s.mem = true) :
      Executed s p (.resume l ready f next) (({ s with mem := f s.mem }.take p l).goto p next)

theorem executed_of_exec (h : exec s p i = some t) : Executed s p i t := by
  cases i with
  | acquire l next =>
    simp only [exec] at h
    split at h
    · cases h
      exact .acquire ‹_›
    · cases h
  | release l next =>
    simp only [exec] at h
    split at h
    · cases h
      exact .release ‹_›
    · cases h
  | access f next =>
    cases h
    exact .access
  | sched l next =>
    simp only [exec] at h
    split at h
    · rename_i hc
      cases h
      exact .sched hc.1
    · cases h
  | resume l ready f next =>
    simp only [exec] at h
    split at h
    · rename_i hc
      cases h
      exact .resume hc.1 hc.2
    · cases h
  | ret r => cases h
  | stop => cases h

theorem Executed.mem_eq (h : Executed s p i t) : t.mem = i.effect s.mem := by
  cases h <;> rfl

theorem Executed.target_isSome (h : Executed s p i t) :
    ∃ c, i.target s.mem = some c ∧ t.pc = update s.pc p (some c) := by
  cases h <;> exact ⟨_, rfl, rfl⟩

theorem called_of_step {d : C} (h : Step P s (.call p d) t) :
    s.pc p = none ∧ t = s.goto p (P.entry d) := by
  simp only [Step, step] at h
  split at h
  · rename_i hnone
    exact ⟨by simpa using hnone, by simpa using h.symm⟩
  · cases h

theorem executed_of_step (h : Step P s (.step p) t) :
    ∃ c, s.pc p = some c ∧ Executed s p (P.code p c) t := by
  obtain ⟨c, hc, hexec⟩ := Option.bind_eq_some_iff.mp h
  exact ⟨c, hc, executed_of_exec hexec⟩

theorem executed_at (h : Step P s (.step p) t) (hc : s.pc p = some c) :
    Executed s p (P.code p c) t := by
  obtain ⟨k, hk, hx⟩ := executed_of_step h
  rw [hc] at hk
  cases hk
  exact hx

theorem returned_of_step {r : Int} (h : Step P s (.ret p r) t) :
    ∃ c, s.pc p = some c ∧ P.code p c = .ret r ∧ t = { s with pc := update s.pc p none } := by
  obtain ⟨c, hc, hret⟩ := Option.bind_eq_some_iff.mp h
  split at hret
  · rename_i r' hcode
    split at hret
    · rename_i hr
      subst hr
      exact ⟨c, hc, hcode, by simpa using hret.symm⟩
    · cases hret
  · cases hret

theorem step_cases (h : Step P s a t) :
    (∃ p c, a = .call p c ∧ s.pc p = none ∧ t = s.goto p (P.entry c)) ∨
      (∃ p c, a = .step p ∧ s.pc p = some c ∧ Executed s p (P.code p c) t) ∨
      (∃ p c r, a = .ret p r ∧ s.pc p = some c ∧ P.code p c = .ret r ∧
        t = { s with pc := update s.pc p none }) := by
  cases a with
  | call p d => exact .inl ⟨p, d, rfl, called_of_step h⟩
  | step p =>
    obtain ⟨c, hx⟩ := executed_of_step h
    exact .inr (.inl ⟨p, c, rfl, hx⟩)
  | ret p r =>
    obtain ⟨c, hret⟩ := returned_of_step h
    exact .inr (.inr ⟨p, c, r, rfl, hret⟩)

/-- Where a thread was before the step that brought it to a point. -/
theorem pc_before (hstep : Step P s a t) (h : t.pc p = some c) :
    s.pc p = some c ∨ (∃ d, a = .call p d ∧ P.entry d = c) ∨
      ∃ k, a = .step p ∧ s.pc p = some k ∧ (P.code p k).target s.mem = some c := by
  obtain ⟨q, d, rfl, -, rfl⟩ | ⟨q, k, rfl, hq, hx⟩ | ⟨q, k, v, -, -, -, rfl⟩ := step_cases hstep
  · by_cases hpq : p = q
    · subst hpq
      rw [goto_pc_self, Option.some.injEq] at h
      exact .inr (.inl ⟨d, rfl, h⟩)
    · rw [goto_pc_of_ne hpq] at h
      exact .inl h
  · obtain ⟨k', htarget, hpc⟩ := hx.target_isSome
    rw [hpc] at h
    by_cases hpq : p = q
    · subst hpq
      rw [update_self, ← htarget] at h
      exact .inr (.inr ⟨k, rfl, hq, h⟩)
    · exact .inl ((update_of_ne hpq _ _).symm.trans h)
  · exact .inl (pc_of_leave h)

/-- Inside a call only its own step or return moves a thread. -/
theorem pc_frame (h : Step P s a t) (hc : s.pc p = some c) (hret : ∀ r, a ≠ .ret p r)
    (hne : a ≠ .step p) : t.pc p = some c := by
  obtain ⟨q, k, -, hq, rfl⟩ | ⟨q, k, rfl, hq, hx⟩ | ⟨q, k, r, rfl, hq, -, rfl⟩ := step_cases h
  · have hpq : p ≠ q := by
      rintro rfl
      rw [hq] at hc
      cases hc
    rw [goto_pc_of_ne hpq, hc]
  · obtain ⟨k', -, hpc⟩ := hx.target_isSome
    have hpq : p ≠ q := fun e => hne (e ▸ rfl)
    rw [hpc, update_of_ne hpq, hc]
  · have hpq : p ≠ q := fun e => hret r (e ▸ rfl)
    exact (update_of_ne hpq _ _).trans hc

/-- The memory and who is at the points that are not `aside` stay. -/
structure Unmoved (aside : Pc → Bool) (s t : State ι L Pc M) : Prop where
  mem : t.mem = s.mem
  pc : ∀ p c, aside c = false → (t.pc p = some c ↔ s.pc p = some c)

/-- A thread that enters or leaves a call does not matter where calls begin and return aside. -/
theorem executed_or_unmoved {aside : Pc → Bool} (hentry : ∀ d, aside (P.entry d) = true)
    (hret : ∀ p k v, P.code p k = .ret v → aside k = true) (hstep : Step P s a t) :
    (∃ p c, a = .step p ∧ s.pc p = some c ∧ Executed s p (P.code p c) t) ∨
      Unmoved aside s t := by
  have hapart : ∀ {c k : Pc}, aside k = true → aside c = false → k ≠ c := by
    rintro c k hk hc rfl
    rw [hk] at hc
    cases hc
  obtain ⟨q, d, -, hq, rfl⟩ | ⟨q, k, rfl, hq, hx⟩ | ⟨q, k, v, -, hq, hcode, rfl⟩ := step_cases hstep
  · refine .inr ⟨rfl, fun p c hc => ?_⟩
    by_cases hpq : p = q
    · subst hpq
      simp [hq, hapart (hentry d) hc]
    · rw [goto_pc_of_ne hpq]
  · exact .inl ⟨q, k, rfl, hq, hx⟩
  · refine .inr ⟨rfl, fun p c hc => ?_⟩
    by_cases hpq : p = q
    · subst hpq
      simp [hq, hapart (hret p k v hcode) hc]
    · simp [hpq]

/-! ## Lock annotations -/

/-- The annotation agrees with the code at every program point. -/
structure Annotates (P : Program ι C L Pc M) (locks : Pc → Finset L) : Prop where
  entry : ∀ c, locks (P.entry c) = ∅
  acquire : ∀ p c l next, P.code p c = .acquire l next → locks next = insert l (locks c)
  release : ∀ p c l next, P.code p c = .release l next →
    l ∈ locks c ∧ locks next = (locks c).erase l
  access : ∀ p c f next, P.code p c = .access f next → ∀ m, locks (next m) = locks c
  sched : ∀ p c l next, P.code p c = .sched l next →
    l ∈ locks c ∧ locks next = (locks c).erase l
  resume : ∀ p c l ready f next, P.code p c = .resume l ready f next →
    locks next = insert l (locks c)

def Fits (locks : Pc → Finset L) (c : Pc) : Instr L Pc M → Prop
  | .acquire l next => locks next = insert l (locks c)
  | .release l next => l ∈ locks c ∧ locks next = (locks c).erase l
  | .access _ next => ∀ m, locks (next m) = locks c
  | .sched l next => l ∈ locks c ∧ locks next = (locks c).erase l
  | .resume l _ _ next => locks next = insert l (locks c)
  | .ret _ => True
  | .stop => True

omit [DecidableEq ι] in
theorem Annotates.of_fits (hentry : ∀ c, locks (P.entry c) = ∅)
    (hfits : ∀ p c, Fits locks c (P.code p c)) : Annotates P locks where
  entry := hentry
  acquire := fun p c l next h => by
    have hf := hfits p c
    rwa [h] at hf
  release := fun p c l next h => by
    have hf := hfits p c
    rwa [h] at hf
  access := fun p c f next h => by
    have hf := hfits p c
    rwa [h] at hf
  sched := fun p c l next h => by
    have hf := hfits p c
    rwa [h] at hf
  resume := fun p c l ready f next h => by
    have hf := hfits p c
    rwa [h] at hf

/-- `p` is inside a call and holds, on top of `base`, the locks of its program point. -/
def Holding (locks : Pc → Finset L) (base : L → Prop) (p : ι) (s : State ι L Pc M) : Prop :=
  ∃ c, s.pc p = some c ∧ (∀ l, s.owner l = some p ↔ base l ∨ l ∈ locks c) ∧
    ∀ l ∈ locks c, ¬ base l

theorem holding_take (hheld : ∀ l, s.owner l = some p ↔ base l ∨ l ∈ locks c)
    (hdisj : ∀ l ∈ locks c, ¬ base l) (free : s.owner l = none)
    (hnext : locks next = insert l (locks c)) (s' : State ι L Pc M) (howner : s'.owner = s.owner) :
    Holding locks base p ((s'.take p l).goto p next) := by
  refine ⟨next, goto_pc_self, ?_, ?_⟩
  · intro k
    rw [hnext, Finset.mem_insert]
    by_cases hk : k = l
    · subst hk
      simp [State.take]
    · simp only [goto_owner, State.take, howner, update_of_ne hk, hheld k, hk, false_or]
  · intro k hk
    rw [hnext, Finset.mem_insert] at hk
    rcases hk with rfl | hk
    · intro hb
      have := (hheld k).mpr (.inl hb)
      rw [free] at this
      cases this
    · exact hdisj k hk

theorem holding_give (hheld : ∀ l, s.owner l = some p ↔ base l ∨ l ∈ locks c)
    (hdisj : ∀ l ∈ locks c, ¬ base l) (hmem : l ∈ locks c) (hnext : locks next = (locks c).erase l) :
    Holding locks base p ((s.give p l).goto p next) := by
  refine ⟨next, goto_pc_self, ?_, ?_⟩
  · intro k
    rw [hnext, Finset.mem_erase]
    by_cases hk : k = l
    · subst hk
      have := hdisj k hmem
      simp [State.give, this]
    · simp only [goto_owner, State.give, update_of_ne hk, hheld k, ne_eq, hk,
        not_false_eq_true, true_and]
  · intro k hk
    rw [hnext] at hk
    exact hdisj k (Finset.mem_of_mem_erase hk)

theorem owner_frame (h : Executed s q i t) (hne : p ≠ q) :
    (∀ l, t.owner l = some p ↔ s.owner l = some p) ∧ t.pc p = s.pc p := by
  have taken : ∀ (s' : State ι L Pc M) (l : L), s'.owner = s.owner → s.owner l = none →
      ∀ k, (s'.take q l).owner k = some p ↔ s.owner k = some p := by
    intro s' l howner free k
    by_cases hk : k = l
    · subst hk
      simp [State.take, free, Ne.symm hne]
    · simp [State.take, hk, howner]
  have given : ∀ l, s.owner l = some q →
      ∀ k, (s.give q l).owner k = some p ↔ s.owner k = some p := by
    intro l mine k
    by_cases hk : k = l
    · subst hk
      simp [State.give, mine, Ne.symm hne]
    · simp [State.give, hk]
  cases h with
  | acquire free => exact ⟨taken s _ rfl free, goto_pc_of_ne hne⟩
  | release mine | sched mine => exact ⟨given _ mine, goto_pc_of_ne hne⟩
  | access => exact ⟨fun _ => Iff.rfl, goto_pc_of_ne hne⟩
  | resume free _ => exact ⟨taken { s with mem := _ } _ rfl free, goto_pc_of_ne hne⟩

theorem Holding.executed (hA : Annotates P locks) (h : Holding locks base p s)
    (hc : s.pc p = some c) (hx : Executed s p (P.code p c) t) : Holding locks base p t := by
  obtain ⟨c', hc', hheld, hdisj⟩ := h
  obtain rfl : c' = c := by rw [hc] at hc'; exact (Option.some.inj hc').symm
  generalize hi : P.code p c' = i at hx
  cases hx with
  | acquire free => exact holding_take hheld hdisj free (hA.acquire _ _ _ _ hi) s rfl
  | release _ =>
    obtain ⟨hmem, hnext⟩ := hA.release _ _ _ _ hi
    exact holding_give hheld hdisj hmem hnext
  | access =>
    refine ⟨_, goto_pc_self, ?_, ?_⟩
    · rw [hA.access _ _ _ _ hi]
      exact hheld
    · rw [hA.access _ _ _ _ hi]
      exact hdisj
  | sched _ =>
    obtain ⟨hmem, hnext⟩ := hA.sched _ _ _ _ hi
    exact holding_give hheld hdisj hmem hnext
  | resume free _ =>
    exact holding_take hheld hdisj free (hA.resume _ _ _ _ _ _ hi) { s with mem := _ } rfl

/-- Every step but the thread's own return keeps `Holding`. -/
theorem Holding.step (hA : Annotates P locks) (h : Holding locks base p s) (hstep : Step P s a t)
    (hret : ∀ r, a ≠ .ret p r) : Holding locks base p t := by
  obtain ⟨q, k, -, hq, rfl⟩ | ⟨q, k, -, hq, hx⟩ | ⟨q, k, r, rfl, hq, -, rfl⟩ := step_cases hstep
  · obtain ⟨c, hc, hheld, hdisj⟩ := h
    have hne : p ≠ q := by
      rintro rfl
      rw [hq] at hc
      cases hc
    exact ⟨c, (goto_pc_of_ne hne).trans hc, hheld, hdisj⟩
  · by_cases hpq : p = q
    · subst hpq
      exact h.executed hA hq hx
    · obtain ⟨howner, hpc⟩ := owner_frame hx hpq
      obtain ⟨c, hc, hheld, hdisj⟩ := h
      exact ⟨c, hpc.trans hc, fun l => (howner l).trans (hheld l), hdisj⟩
  · obtain ⟨c, hc, hheld, hdisj⟩ := h
    have hne : p ≠ q := by
      rintro rfl
      exact hret r rfl
    exact ⟨c, (update_of_ne hne _ _).trans hc, hheld, hdisj⟩

/-- A call starts with nothing on top of what the thread already held. -/
theorem holding_call (hA : Annotates P locks) {c : C} (h : Step P s (.call p c) t) :
    Holding locks (fun l => s.owner l = some p) p t := by
  obtain ⟨-, rfl⟩ := called_of_step h
  refine ⟨_, goto_pc_self, fun l => ?_, ?_⟩
  · rw [hA.entry]
    simp
  · rw [hA.entry]
    simp

/-- The locks of its program point are held by the thread, in every reachable state. -/
def Owned (locks : Pc → Finset L) (s : State ι L Pc M) : Prop :=
  ∀ p c, s.pc p = some c → ∀ l ∈ locks c, s.owner l = some p

omit [DecidableEq ι] [DecidableEq L] in
/-- Two threads cannot both be at points that hold the same lock. -/
theorem Owned.unique (h : Owned locks s) (hc : s.pc p = some c) (hk : s.pc q = some k)
    (hl : l ∈ locks c) (hl' : l ∈ locks k) : p = q := by
  have hboth := (h p c hc l hl).symm.trans (h q k hk l hl')
  exact Option.some.inj hboth

theorem Owned.step (hA : Annotates P locks) (h : Owned locks s) (hstep : Step P s a t) :
    Owned locks t := by
  intro p c hc
  -- a thread that was inside a call has not returned
  have inside : ∀ k, s.pc p = some k → ∀ l ∈ locks c, t.owner l = some p := by
    intro k hk l hl
    have hhold : Holding locks (fun l => s.owner l = some p ∧ l ∉ locks k) p s :=
      ⟨k, hk, fun l => ⟨fun ho => by by_cases hl : l ∈ locks k <;> simp [ho, hl],
        fun ho => ho.elim And.left (h p k hk l)⟩, fun l hl hb => hb.2 hl⟩
    have hret : ∀ r, a ≠ .ret p r := by
      rintro r rfl
      obtain ⟨_, -, -, rfl⟩ := returned_of_step hstep
      simp at hc
    obtain ⟨c', hc', hheld, -⟩ := hhold.step hA hstep hret
    rw [hc, Option.some.injEq] at hc'
    exact (hheld l).mpr (.inr (hc' ▸ hl))
  rcases pc_before hstep hc with hk | ⟨d, rfl, rfl⟩ | ⟨k, -, hk, -⟩
  · exact inside c hk
  · rw [hA.entry]
    simp
  · exact inside k hk

/-! ## A thread that nobody interrupts -/

/-- Where `n` instructions take a thread alone, and the memory they leave; it stays where it waits
or returns. -/
def alone (code : Pc → Instr L Pc M) : Nat → Pc → M → Pc × M
  | 0, c, m => (c, m)
  | n + 1, c, m => match code c with
    | .acquire _ next | .release _ next | .sched _ next => alone code n next m
    | .access f next => alone code n (next m) (f m)
    | .resume _ ready f next => if ready m then alone code n next (f m) else (c, m)
    | .ret _ | .stop => (c, m)

/-- What a call returns here, or `none` for its sleep. -/
def Instr.outcome (m : M) : Instr L Pc M → Option (Option Int)
  | .ret r => some (some r)
  | .resume _ ready _ _ => if ready m then none else some none
  | _ => none

variable {m m' : M} {code : Pc → Instr L Pc M} {r : Option Int} {n : Nat}

theorem alone_of_run (h : Run (Step P) s (List.replicate n (.step p)) t) (hc : s.pc p = some c)
    (hk : t.pc p = some k) : alone (P.code p) n c s.mem = (k, t.mem) := by
  induction n generalizing s c with
  | zero =>
    cases h
    rw [hc] at hk
    cases hk
    rfl
  | succ n ih =>
    obtain ⟨s1, hstep, hrest⟩ := h.cons_inv
    have hx := executed_at hstep hc
    have hrest := fun c1 => ih hrest (c := c1)
    rw [alone]
    generalize P.code p c = i at hx
    cases hx <;> simp_all [State.take, State.give]

omit [DecidableEq L]

theorem alone_ended (h : (code c).outcome m = some r) (n : Nat) : alone code n c m = (c, m) := by
  cases n with
  | zero => rfl
  | succ n =>
    rw [alone]
    generalize code c = i at h ⊢
    cases i <;> simp_all [Instr.outcome]

theorem alone_unique (h : alone code n c m = (k, m')) (hend : (code k).outcome m' = some r) (j : Nat) :
    alone code (n + j) c m = (k, m') := by
  induction n generalizing c m with
  | zero =>
    cases h
    exact alone_ended hend _
  | succ n ih =>
    rw [Nat.succ_add]
    rw [alone] at h ⊢
    generalize code c = i at h ⊢
    cases i with
    | resume l ready f next =>
      dsimp only at h ⊢
      split at h
      · rw [if_pos ‹_›, ih h]
      · rw [if_neg ‹_›, h]
    | ret v | stop => exact h
    | _ => exact ih h

end Xv6.Lib.Spin
