import Xv6.Ptable.Tree

/-! # `exit` and `wait`

A history runs beside the machine: which process is in a slot, who made it, who exited and who
reaped whom. It is ghost state that no step reads.
-/

namespace Xv6.Ptable

open Function (update update_apply)
open Lib

variable {κ : Type}

variable {c d : Core κ} {e : Event} {p : Slot} {f : Life → Life} {root : Nat} {slot : Int → Int → Slot}

/-! ## The history -/

/-- One of the processes that a slot holds over time; `gen` counts them. -/
structure Incarnation where
  slot : Slot
  gen : Nat
  deriving DecidableEq

structure Exit where
  who : Incarnation
  pid : Int
  forker : Option Incarnation
  deriving DecidableEq

/-- A `wait` by `reaper` that returned `pid`. -/
structure Reap where
  child : Incarnation
  pid : Int
  reaper : Incarnation
  deriving DecidableEq

structure History where
  born : Slot → Nat
  forker : Slot → Option Incarnation
  exits : List Exit
  reaps : List Reap

def History.start : History := ⟨fun _ => 0, fun _ => none, [], []⟩

def History.who (h : History) (p : Slot) : Incarnation := ⟨p, h.born p⟩

def History.record (h : History) (c : Core κ) : Event → History
  | .alloc p np =>
    { h with
      born := update h.born np (h.born np + 1)
      forker := update h.forker np (some (h.who p)) }
  | .exit p => { h with exits := ⟨h.who p, (c.life p).pid, h.forker p⟩ :: h.exits }
  | .reap p q => { h with reaps := ⟨h.who q, (c.life q).pid, h.who p⟩ :: h.reaps }
  | _ => h

/-- A process that exits is in its slot as a `ZOMBIE` until it is reaped. -/
structure Kept (c : Core κ) (h : History) : Prop where
  exits_nodup : (h.exits.map Exit.who).Nodup
  reaps_nodup : (h.reaps.map Reap.child).Nodup
  exits_gone : ∀ e ∈ h.exits, e.who.gen ≤ h.born e.who.slot ∧
    (e.who = h.who e.who.slot → (c.life e.who.slot).state = .zombie ∨ (c.life e.who.slot).state = .unused)
  exits_kept : ∀ e ∈ h.exits, (∃ r ∈ h.reaps, r.child = e.who) ∨
    e.who = h.who e.who.slot ∧ (c.life e.who.slot).state = .zombie ∧ (c.life e.who.slot).pid = e.pid
  zombie : ∀ q, (c.life q).state = .zombie → ⟨h.who q, (c.life q).pid, h.forker q⟩ ∈ h.exits
  reaps_gone : ∀ r ∈ h.reaps, r.child = h.who r.child.slot → (c.life r.child.slot).state = .unused
  reaps_right : ∀ r ∈ h.reaps, ∃ e ∈ h.exits, e.who = r.child ∧ e.pid = r.pid ∧
    (e.forker = some r.reaper ∨ r.reaper.slot = c.initproc ∧ ∃ f ∈ h.exits, e.forker = some f.who)
  parent : ∀ q a, (c.life q).Live → c.parent q = some a →
    h.forker q = some (h.who a) ∨ a = c.initproc ∧ ∃ f ∈ h.exits, h.forker q = some f.who
  forking : ∀ p np, (c.doing p).child = some np → h.forker np = some (h.who p)

/-! ## Steps that are not in the history -/

structure Steady (c d : Core κ) : Prop where
  initproc : d.initproc = c.initproc
  pid : ∀ q, (d.life q).pid = (c.life q).pid
  zombie : ∀ q, (d.life q).state = .zombie ↔ (c.life q).state = .zombie
  unused : ∀ q, (c.life q).state = .unused → (d.life q).state = .unused
  parent : ∀ q, (d.life q).Live → d.parent q = c.parent q
  live : ∀ q, (d.life q).Live → (c.life q).Live ∨ ∃ p, c.doing p = .copied q
  child : ∀ p np, (d.doing p).child = some np → (c.doing p).child = some np

variable {h : History}

theorem Kept.steady (hk : Kept c h) (ht : Tree c) (hs : Steady c d) : Kept d h where
  exits_nodup := hk.exits_nodup
  reaps_nodup := hk.reaps_nodup
  exits_gone := fun e he => by
    refine ⟨(hk.exits_gone e he).1, fun heq => ?_⟩
    rcases (hk.exits_gone e he).2 heq with hz | hu
    · exact .inl ((hs.zombie _).mpr hz)
    · exact .inr (hs.unused _ hu)
  exits_kept := fun e he => by
    rcases hk.exits_kept e he with hr | ⟨heq, hz, hpid⟩
    · exact .inl hr
    · exact .inr ⟨heq, (hs.zombie _).mpr hz, (hs.pid _).trans hpid⟩
  zombie := fun q hq => by
    rw [hs.pid]
    exact hk.zombie q ((hs.zombie q).mp hq)
  reaps_gone := fun r hr heq => hs.unused _ (hk.reaps_gone r hr heq)
  reaps_right := by
    rw [hs.initproc]
    exact hk.reaps_right
  parent := fun q a hq ha => by
    rw [hs.parent q hq] at ha
    rw [hs.initproc]
    rcases hs.live q hq with hold | ⟨p, hp⟩
    · exact hk.parent q a hold ha
    · -- a child of `fork` that becomes `RUNNABLE`
      have hpa : some p = some a := (ht.adopted p q hp).symm.trans ha
      rw [← Option.some.inj hpa]
      exact .inl (hk.forking p q (congrArg Doing.child hp))
  forking := fun p np hp => hk.forking p np (hs.child p np hp)

theorem Calm.steady (hinit : d.initproc = c.initproc) (hlife : ∀ q, Calm (c.life q) (d.life q))
    (hchild : ∀ p np, (d.doing p).child = some np → (c.doing p).child = some np) : Steady c d where
  initproc := hinit
  pid := fun q => (hlife q).pid
  zombie := fun q => by
    rcases (hlife q).state with heq | ⟨hx, hy⟩
    · rw [heq]
    · exact iff_of_false hy.2 hx.2
  unused := fun q hq => by
    rcases (hlife q).state with heq | ⟨hx, -⟩
    · exact heq.trans hq
    · exact absurd hq hx.1.1
  parent := fun q _ => (hlife q).parent
  live := fun q hq => .inl ((hlife q).live.mp hq)
  child := hchild

theorem Growth.steady (hf : Forks c) (hinit : d.initproc = c.initproc) (hgrowth : Growth c d e)
    (quiet : e.Quiet) : Steady c d := by
  have hborn := hgrowth.live
  cases hgrowth with
  | calm _ life doing => exact Calm.steady hinit life (doing ▸ fun _ _ => id)
  | alloc | exit | reap => exact quiet.elim
  | @advance _ p np w _ alive child state adopted pid life doing =>
    have hold := hf.embryo p np child
    have hnew : (d.life np).state ≠ .zombie ∧ ¬ (d.life np).Live := by
      rcases state with ⟨hst, -⟩ | ⟨hst, -⟩ <;> simp [hst, Life.Live]
    have hw : w.child = none ∨ w.child = (c.doing p).child := by
      rcases state with ⟨-, hw⟩ | ⟨-, rfl⟩
      · exact .inr (hw.trans child.symm)
      · exact .inl rfl
    have hlive : ∀ q, (d.life q).Live → q ≠ np := fun q hq heq => hnew.2 (heq ▸ hq)
    refine ⟨hinit, fun q => ?_, fun q => ?_, fun q hq => ?_, fun q hq => ?_, hborn,
      slot_update doing hw⟩
    · by_cases hq : q = np
      · rw [hq, pid]
      · rw [life q hq]
    · by_cases hq : q = np
      · rw [hq]
        exact iff_of_false hnew.1 (by simp [hold])
      · rw [life q hq]
    · rw [life q, hq]
      rintro rfl
      exact absurd (hold.symm.trans hq) nofun
    · exact congrArg Life.parent (life q (hlive q hq))
  | @finish _ p np _ alive forking self life doing =>
    have hold := hf.embryo p np (congrArg Doing.child forking)
    refine ⟨hinit, fun q => ?_, fun q => ?_, fun q hq => ?_, fun q hq => ?_, hborn,
      fun q nq hq => ?_⟩
    · by_cases hq : q = np
      · rw [hq, self]
      · rw [life q hq]
    · by_cases hq : q = np
      · rw [hq, self]
        simp [hold]
      · rw [life q hq]
    · rw [life q, hq]
      rintro rfl
      exact absurd (hold.symm.trans hq) nofun
    · unfold Core.parent
      by_cases hqn : q = np
      · rw [hqn, self]
      · rw [life q hqn]
    · exact slot_update rfl (.inl rfl) q nq (slot_update doing (.inl rfl) q nq hq)
  | prepare _ alive mortal life doing =>
    exact Calm.steady hinit life (slot_update doing (.inl rfl))

/-! ## Steps that are in the history -/

/-- A slot is taken again only after the process before it is gone. -/
theorem Kept.alloc {np : Slot} (hk : Kept c h) (ht : Tree c) (hf : Forks c)
    (hinit : d.initproc = c.initproc) (alive : (c.life p).Alive)
    (free : (c.life np).state = .unused) (taken : (d.life np).state = .embryo)
    (hlife : ∀ q, q ≠ np → d.life q = c.life q)
    (hdoing : d.doing = update c.doing p (.allocated np)) : Kept d (h.record c (.alloc p np)) := by
  have hold : ∀ {x : Life}, x.Alive → ∀ q, c.life q = x → q ≠ np := by
    rintro x hx q rfl rfl
    exact hx.1.1 free
  have hpnp : p ≠ np := hold alive p rfl
  have hborn : ∀ q, q ≠ np → (h.record c (.alloc p np)).who q = h.who q := by
    intro q hq
    simp [History.record, History.who, hq]
  have hforker : ∀ q, q ≠ np → (h.record c (.alloc p np)).forker q = h.forker q := by
    intro q hq
    simp [History.record, hq]
  -- a record of the slot that was taken is about an earlier process
  have hpast : ∀ i : Incarnation, i.gen ≤ h.born i.slot → i = (h.record c (.alloc p np)).who i.slot →
      i.slot ≠ np := by
    rintro ⟨q, g⟩ hle heq rfl
    simp only [History.record, History.who, Incarnation.mk.injEq, true_and, Function.update_self] at heq
    dsimp only at hle
    omega
  have hreap : ∀ r ∈ h.reaps, r.child.gen ≤ h.born r.child.slot := by
    intro r hr
    obtain ⟨e, he, hwho, -⟩ := hk.reaps_right r hr
    rw [← hwho]
    exact (hk.exits_gone e he).1
  have hgen : ∀ q, h.born q ≤ (h.record c (.alloc p np)).born q := by
    intro q
    simp only [History.record, update_apply]
    split
    · rename_i heq
      rw [heq]
      exact Nat.le_succ _
    · exact Nat.le_refl _
  refine ⟨hk.exits_nodup, hk.reaps_nodup, fun e he => ⟨?_, fun heq => ?_⟩, fun e he => ?_, fun q hq => ?_,
    fun r hr heq => ?_, hinit ▸ hk.reaps_right, fun q a hq ha => ?_, fun q nq hq => ?_⟩
  · exact Nat.le_trans (hk.exits_gone e he).1 (hgen _)
  · have hne := hpast e.who (hk.exits_gone e he).1 heq
    rw [hlife _ hne]
    exact (hk.exits_gone e he).2 (heq.trans (hborn _ hne))
  · rcases hk.exits_kept e he with hr | ⟨heq, hz, hpid⟩
    · exact .inl hr
    have hne : e.who.slot ≠ np := by
      intro hnp
      rw [hnp, free] at hz
      cases hz
    refine .inr ⟨heq.trans (hborn _ hne).symm, ?_⟩
    rw [hlife _ hne]
    exact ⟨hz, hpid⟩
  · have hne : q ≠ np := by
      rintro rfl
      rw [taken] at hq
      cases hq
    rw [hborn q hne, hforker q hne, hlife q hne]
    exact hk.zombie q (hlife q hne ▸ hq)
  · have hne := hpast r.child (hreap r hr) heq
    rw [hlife _ hne]
    exact hk.reaps_gone r hr (heq.trans (hborn _ hne))
  · have hne : q ≠ np := by
      rintro rfl
      exact hq.2 taken
    have ha' : c.parent q = some a := (congrArg Life.parent (hlife q hne)).symm.trans ha
    have hlive : (c.life q).Live := hlife q hne ▸ hq
    have hinitq : q ≠ c.initproc := by
      rintro rfl
      exact absurd (ht.top.symm.trans ha') nofun
    obtain ⟨a', hpa, halive⟩ := ht.parent q hlive hinitq
    obtain rfl := Option.some.inj (hpa.symm.trans ha')
    rw [hforker q hne, hborn a' (hold halive a' rfl), hinit]
    exact hk.parent q a' hlive ha'
  · rcases doing_update hdoing q with ⟨rfl, heq⟩ | ⟨-, heq⟩
    · rw [heq] at hq
      obtain rfl := Option.some.inj hq
      rw [hborn q hpnp]
      simp [History.record]
    rw [heq] at hq
    have hne : nq ≠ np := by
      rintro rfl
      rw [hf.embryo q nq hq] at free
      cases free
    have hbusy : (c.life q).Alive := ht.busy q fun huser => by
      rw [huser] at hq
      cases hq
    rw [hforker nq hne, hborn q (hold hbusy q rfl)]
    exact hk.forking q nq hq

theorem Kept.exit (hk : Kept c h) (ht : Tree c) (hinit : d.initproc = c.initproc)
    (hp : (c.life p).Alive) (exiting : c.doing p = .exiting) (left : ExitLife c p d.life)
    (hdoing : d.doing = update c.doing p .user) : Kept d (h.record c (.exit p)) := by
  have hpid : ∀ q, (d.life q).pid = (c.life q).pid := by
    intro q
    rw [left.frame q]
  have hne : ∀ q, (c.life q).state = .zombie ∨ (c.life q).state = .unused → q ≠ p := by
    rintro q hq rfl
    rcases hq with hq | hq
    · exact hp.2 hq
    · exact hp.1.1 hq
  have hsame : ∀ q, (c.life q).state = .zombie ∨ (c.life q).state = .unused →
      (d.life q).state = (c.life q).state := by
    intro q hq
    rcases left.state q (hne q hq) with heq | ⟨hs, -⟩
    · exact heq
    · simp [hs] at hq
  refine ⟨?_, hk.reaps_nodup, ?_, ?_, fun q hq => ?_, fun r hr heq => ?_, fun r hr => ?_, fun q a hq ha => ?_,
    fun q nq hq => ?_⟩
  · refine List.nodup_cons.mpr ⟨fun hmem => ?_, hk.exits_nodup⟩
    obtain ⟨e, he, heq⟩ := List.mem_map.mp hmem
    have hslot : e.who.slot = p := by rw [heq]; rfl
    refine hne p ?_ rfl
    rw [← hslot]
    exact (hk.exits_gone e he).2 (by rw [heq]; rfl)
  · refine List.forall_mem_cons.mpr ⟨⟨Nat.le_refl _, fun _ => .inl left.self⟩, fun e he => ?_⟩
    refine ⟨(hk.exits_gone e he).1, fun heq => ?_⟩
    have hgone := (hk.exits_gone e he).2 heq
    rwa [hsame _ hgone]
  · refine List.forall_mem_cons.mpr ⟨.inr ⟨rfl, left.self, hpid p⟩, fun e he => ?_⟩
    rcases hk.exits_kept e he with hr | ⟨heq, hz, hpid'⟩
    · exact .inl hr
    · exact .inr ⟨heq, (hsame _ (.inl hz)).trans hz, (hpid _).trans hpid'⟩
  · rw [hpid]
    by_cases hqp : q = p
    · rw [hqp]
      exact List.mem_cons_self
    · rcases left.state q hqp with heq | ⟨-, hrun⟩
      · exact List.mem_cons_of_mem _ (hk.zombie q (heq.symm.trans hq))
      · exact absurd (hrun.symm.trans hq) nofun
  · have hgone := hk.reaps_gone r hr heq
    exact (hsame _ (.inr hgone)).trans hgone
  · obtain ⟨e, he, hwho, hpid', hby⟩ := hk.reaps_right r hr
    refine ⟨e, List.mem_cons_of_mem _ he, hwho, hpid', ?_⟩
    rcases hby with hby | ⟨hby, f, hf, hforker⟩
    · exact .inl hby
    · exact .inr ⟨hby.trans hinit.symm, f, List.mem_cons_of_mem _ hf, hforker⟩
  · have hlive := left.live hp q hq
    rw [hinit]
    have hpa := (left.parent q).symm.trans ha
    split at hpa
    · -- a child passed to `init`
      rename_i hchild
      obtain rfl := Option.some.inj hpa
      rcases hk.parent q p hlive hchild with hforker | ⟨rfl, -⟩
      · exact .inr ⟨rfl, _, List.mem_cons_self, hforker⟩
      · exact absurd rfl (ht.mortal _ exiting)
    · rcases hk.parent q a hlive hpa with hforker | ⟨ha', f, hf, hforker⟩
      · exact .inl hforker
      · exact .inr ⟨ha', f, List.mem_cons_of_mem _ hf, hforker⟩
  · exact hk.forking q nq (slot_update hdoing (.inl rfl) q nq hq)

theorem Kept.reap {q : Slot} (hk : Kept c h) (hinit : d.initproc = c.initproc)
    (dead : (c.life q).state = .zombie) (child : c.parent q = some p)
    (free : (d.life q).state = .unused) (hlife : ∀ r, r ≠ q → d.life r = c.life r)
    (hdoing : d.doing = c.doing) : Kept d (h.record c (.reap p q)) := by
  refine ⟨hk.exits_nodup, ?_, fun e he => ⟨(hk.exits_gone e he).1, fun heq => ?_⟩, fun e he => ?_,
    fun r hr => ?_, ?_, ?_, fun r a hr ha => ?_, fun r nr hr => ?_⟩
  · refine List.nodup_cons.mpr ⟨fun hmem => ?_, hk.reaps_nodup⟩
    obtain ⟨r, hr, heq⟩ := List.mem_map.mp hmem
    have hslot : r.child.slot = q := by rw [heq]; rfl
    have hgone := hk.reaps_gone r hr (by rw [heq]; rfl)
    rw [hslot, dead] at hgone
    cases hgone
  · by_cases hq : e.who.slot = q
    · rw [hq]
      exact .inr free
    · rw [hlife _ hq]
      exact (hk.exits_gone e he).2 heq
  · rcases hk.exits_kept e he with ⟨r, hr, hchild⟩ | ⟨heq, hz, hpid⟩
    · exact .inl ⟨r, List.mem_cons_of_mem _ hr, hchild⟩
    by_cases hq : e.who.slot = q
    · exact .inl ⟨_, List.mem_cons_self, by rw [heq, hq]⟩
    · refine .inr ⟨heq, ?_⟩
      rw [hlife _ hq]
      exact ⟨hz, hpid⟩
  · have hne : r ≠ q := by
      rintro rfl
      exact absurd (free.symm.trans hr) nofun
    rw [hlife r hne] at hr ⊢
    exact hk.zombie r hr
  · refine List.forall_mem_cons.mpr ⟨fun _ => free, fun r hr heq => ?_⟩
    by_cases hq : r.child.slot = q
    · rw [hq]
      exact free
    · rw [hlife _ hq]
      exact hk.reaps_gone r hr heq
  · refine List.forall_mem_cons.mpr ⟨⟨_, hk.zombie q dead, rfl, rfl, ?_⟩, hinit ▸ hk.reaps_right⟩
    have hlive : (c.life q).Live := by simp [Life.Live, dead]
    rw [hinit]
    exact hk.parent q p hlive child
  · have hne : r ≠ q := by
      rintro rfl
      exact hr.1 free
    rw [hinit]
    exact hk.parent r a (hlife r hne ▸ hr) ((congrArg Life.parent (hlife r hne)).symm.trans ha)
  · rw [hdoing] at hr
    exact hk.forking r nr hr

theorem Kept.growth (hk : Kept c h) (ht : Tree c) (hf : Forks c) (hinit : d.initproc = c.initproc)
    (hgrowth : Growth c d e) : Kept d (h.record c e) := by
  by_cases quiet : e.Quiet
  · have hrecord : h.record c e = h := by
      cases e <;> first | rfl | exact quiet.elim
    rw [hrecord]
    exact hk.steady ht (hgrowth.steady hf hinit quiet)
  · cases hgrowth with
    | calm quiet' | advance quiet' | finish quiet' | prepare quiet' => exact absurd quiet' quiet
    | alloc alive free taken life doing => exact hk.alloc ht hf hinit alive free taken life doing
    | exit alive exiting left doing => exact hk.exit ht hinit alive exiting left doing
    | reap dead child free life doing => exact hk.reap hinit dead child free life doing

/-! ## Waiting parents -/

/-- A process asleep in `wait` sleeps on itself and has no child to reap. -/
structure Waiters (c : Core κ) : Prop where
  chan : ∀ p, c.parked p = .waiting → (c.life p).chan = some (.proc p)
  childless : ∀ p q, c.parked p = .waiting → (c.life p).state = .sleeping → c.parent q = some p →
    (c.life q).state ≠ .zombie

/-- Nobody falls asleep in `wait`, and nobody becomes a `ZOMBIE` or gets another parent then. -/
theorem Waiters.frame (h : Waiters c)
    (hwait : ∀ p, d.parked p = .waiting → c.parked p = .waiting ∧ (d.life p).chan = (c.life p).chan ∧
      ((d.life p).state = .sleeping → (c.life p).state = .sleeping))
    (hdead : ∀ q, (d.life q).state = .zombie → (c.life q).state = .zombie ∧ d.parent q = c.parent q) :
    Waiters d where
  chan := fun p hp => (hwait p hp).2.1.trans (h.chan p (hwait p hp).1)
  childless := fun p q hp hs hq hz => by
    obtain ⟨hz', hparent⟩ := hdead q hz
    exact h.childless p q (hwait p hp).1 ((hwait p hp).2.2 hs) (hparent.symm.trans hq) hz'

theorem Waiters.entry (h : Waiters c) (hlife : ∀ q, d.life q = c.entry p f q)
    (hparked : ∀ q, q ≠ p → d.parked q = .waiting → c.parked q = .waiting)
    (hself : d.parked p = .waiting → c.parked p = .waiting ∧
      (f (c.life p)).chan = (c.life p).chan ∧
      ((f (c.life p)).state = .sleeping → (c.life p).state = .sleeping))
    (hdead : (f (c.life p)).state = .zombie →
      (c.life p).state = .zombie ∧ (f (c.life p)).parent = (c.life p).parent) : Waiters d := by
  refine h.frame (fun q hq => ?_) (fun q hz => ?_)
  · rw [hlife]
    by_cases hqp : q = p
    · subst hqp
      rw [entry_self]
      exact hself hq
    · rw [entry_of_ne q hqp]
      exact ⟨hparked q hqp hq, rfl, id⟩
  · unfold Core.parent
    rw [hlife] at hz ⊢
    by_cases hqp : q = p
    · subst hqp
      rw [entry_self] at hz ⊢
      exact hdead hz
    · rw [entry_of_ne q hqp] at hz ⊢
      exact ⟨hz, rfl⟩

theorem Waiters.store (h : Waiters c) (hlife : ∀ q, d.life q = c.entry p f q) (hparked : d.parked = c.parked)
    (hchan : (f (c.life p)).chan = (c.life p).chan)
    (hstate : (f (c.life p)).state = (c.life p).state ∧ (f (c.life p)).parent = (c.life p).parent ∨
      (f (c.life p)).state ≠ .sleeping ∧ (f (c.life p)).state ≠ .zombie) : Waiters d := by
  refine h.entry hlife (fun q _ hq => hparked ▸ hq) (fun hp => ⟨hparked ▸ hp, hchan, fun hs => ?_⟩)
    (fun hz => ?_)
  · rcases hstate with ⟨heq, -⟩ | ⟨hne, -⟩
    · exact heq.symm.trans hs
    · exact absurd hs hne
  · rcases hstate with ⟨heq, hparent⟩ | ⟨-, hne⟩
    · exact ⟨heq.symm.trans hz, hparent⟩
    · exact absurd hz hne

theorem Waiters.leave {w : Parked} (h : Waiters c) (hlife : ∀ q, d.life q = c.entry p f q)
    (hparked : d.parked = update c.parked p w) (hw : w ≠ .waiting)
    (hdead : (f (c.life p)).state = .zombie →
      (c.life p).state = .zombie ∧ (f (c.life p)).parent = (c.life p).parent) : Waiters d := by
  refine h.entry hlife (fun q hqp hq => ?_) (fun hp => ?_) hdead
  · rwa [hparked, Function.update_of_ne hqp] at hq
  · rw [hparked, Function.update_self] at hp
    exact absurd hp hw

/-- `wait` has seen that there is no `ZOMBIE` child, and has held the lock since. -/
theorem Waiters.wait (h : Waiters c) (hlife : ∀ q, d.life q =
      c.entry p (fun x => { x with chan := some (.proc p), state := .sleeping }) q)
    (hparked : d.parked = update c.parked p .waiting)
    (hkids : ∀ q, (c.life q).parent = some p → (c.life q).state ≠ .zombie) : Waiters d := by
  have hself : d.life p = { c.life p with chan := some (.proc p), state := .sleeping } :=
    (hlife p).trans entry_self
  have hother : ∀ q, q ≠ p → d.life q = c.life q := fun q hq => (hlife q).trans (entry_of_ne q hq)
  have hwait : ∀ q, q ≠ p → d.parked q = .waiting → c.parked q = .waiting := by
    intro q hqp hq
    rwa [hparked, Function.update_of_ne hqp] at hq
  refine ⟨fun q hq => ?_, fun w q hw hs hq hz => ?_⟩
  · by_cases hqp : q = p
    · rw [hqp, hself]
    · rw [hother q hqp]
      exact h.chan q (hwait q hqp hq)
  have hqp : q ≠ p := by
    rintro rfl
    rw [hself] at hz
    cases hz
  unfold Core.parent at hq
  rw [hother q hqp] at hq hz
  by_cases hwp : w = p
  · exact hkids q (hwp ▸ hq) hz
  · rw [hother w hwp] at hs
    exact h.childless w q (hwait w hwp hw) hs hq hz

/-- The parent of a process that exits is awake before the process is a `ZOMBIE`, and so is
`init` if it inherits one. -/
theorem Waiters.exit (h : Waiters c) (ht : Tree c) (hp : (c.life p).Alive) (left : ExitLife c p d.life)
    (hparked : d.parked = update c.parked p .exited) : Waiters d := by
  have hwait : ∀ q, d.parked q = .waiting → q ≠ p ∧ c.parked q = .waiting := by
    intro q hq
    rw [hparked, update_apply] at hq
    split at hq
    · cases hq
    · exact ⟨‹_›, hq⟩
  have hchan : ∀ q, (d.life q).chan = (c.life q).chan := by
    intro q
    rw [left.frame q]
  refine ⟨fun q hq => (hchan q).trans (h.chan q (hwait q hq).2), fun w q hw hs hq hz => ?_⟩
  obtain ⟨hwp, hw⟩ := hwait w hw
  have hwchan := h.chan w hw
  have hws : (c.life w).state = .sleeping := by
    rcases left.state w hwp with heq | ⟨hs', -⟩
    · exact heq.symm.trans hs
    · exact hs'
  have hparent := (left.parent q).symm.trans hq
  by_cases hqp : q = p
  · rw [hqp] at hparent
    split at hparent
    · -- a process is not its own parent
      rename_i hself
      obtain ⟨l, hl⟩ := ht.rooted p hp.1
      exact hl.not_cycle (.single hself)
    · refine left.wakesParent w hwp ?_ hs
      rw [hwchan, hparent]
      rfl
  · have hzc : (c.life q).state = .zombie := by
      rcases left.state q hqp with heq | ⟨-, hrun⟩
      · exact heq.symm.trans hz
      · exact absurd (hrun.symm.trans hz) nofun
    split at hparent
    · rename_i hchild
      obtain rfl := Option.some.inj hparent
      exact left.wakesInit q _ hwp hchild hzc hwchan hs
    · exact h.childless w q hw hws hparent hzc

variable [DecidableEq κ]

theorem Waiters.move (hr : Rooted c) (h : Waiters c) (hmove : Move c e d) : Waiters d := by
  obtain ⟨⟨-, hf⟩, ht⟩ := hr
  cases hmove with
  | stutter => exact h
  | @wake l woken =>
    refine h.frame (fun q hq => ⟨hq, ?_, fun hs => ?_⟩) (fun q hz => ?_)
    · rcases woken q with heq | ⟨-, heq⟩ <;> simp [heq]
    · rcases woken q with heq | ⟨hs', -⟩
      · exact (congrArg Life.state heq).symm.trans hs
      · exact hs'
    · rcases woken q with heq | ⟨-, heq⟩
      · exact ⟨(congrArg Life.state heq).symm.trans hz, congrArg Life.parent heq⟩
      · exact absurd ((congrArg Life.state heq).symm.trans hz) nofun
  | dispatch | alloc on user free | fail =>
    exact h.store (fun _ => rfl) rfl rfl (.inr ⟨nofun, nofun⟩)
  | goto => exact h.frame (fun q hq => ⟨hq, rfl, id⟩) fun q hz => ⟨hz, rfl⟩
  | @shift k p w lock on from_plain to_plain =>
    refine h.frame (fun q hq => ⟨?_, rfl, id⟩) fun q hz => ⟨hz, rfl⟩
    dsimp only at hq
    rw [update_apply] at hq
    split at hq
    · rw [hq] at to_plain
      exact to_plain.elim
    · exact hq
  | @awake k p w lock on to_plain =>
    refine h.leave (fun _ => rfl) rfl ?_ fun hz => ⟨hz, rfl⟩
    rintro rfl
    exact to_plain
  | yield on into =>
    rcases into with ⟨rfl, rfl⟩ | ⟨rfl, rfl⟩
    · exact h.leave (fun _ => rfl) rfl nofun nofun
    · exact h.leave (fun _ => rfl) rfl nofun nofun
  | @sleep k p ch w on into =>
    rcases into with rfl | ⟨rfl, rfl, hkids⟩
    · exact h.leave (fun _ => rfl) rfl nofun nofun
    · exact h.wait (fun _ => rfl) rfl hkids
  | init | inherit | prepare | enter | store =>
    exact h.store (fun _ => rfl) rfl rfl (.inl ⟨rfl, rfl⟩)
  | @adopt k p np files on forking =>
    have hnp := hf.embryo p np (congrArg Doing.child forking)
    exact h.store (fun _ => rfl) rfl rfl (.inr ⟨by simp [hnp], by simp [hnp]⟩)
  | finish => exact h.leave (fun _ => rfl) rfl nofun nofun
  | exit on exiting left => exact h.exit ht (ht.busy _ (by simp [exiting])) left rfl
  | @reap k p q lock on scanning dead child =>
    refine h.entry (fun _ => rfl) (fun r _ hr => ?_) (fun hr => ⟨?_, rfl, nofun⟩) nofun
    all_goals
      dsimp only at hr
      rw [update_apply] at hr
      split at hr
      · cases hr
      · exact hr

/-! ## Runs -/

/-- A step of the machine, with its event in the history. -/
def tracedStep (x : State κ × History) (a : Label κ) : Option (State κ × History) :=
  (x.1.step a).map fun t => (t, x.2.record x.1.core (event x.1 a))

abbrev Traced (x : State κ × History) (a : Label κ) (y : State κ × History) : Prop :=
  tracedStep x a = some y

omit [DecidableEq κ] in
theorem booted_kept : Kept (booted κ root slot).core .start where
  exits_nodup := List.nodup_nil
  reaps_nodup := List.nodup_nil
  exits_gone := nofun
  exits_kept := nofun
  zombie := fun q hq => by
    by_cases h : q = 0 <;> simp [booted, State.core, Proc.life, initcode, blank, h] at hq
  reaps_gone := nofun
  reaps_right := nofun
  parent := fun q a _ ha => by
    by_cases h : q = 0 <;> simp [booted, State.core, Proc.life, Core.parent, initcode, blank, h] at ha
  forking := nofun

omit [DecidableEq κ] in
theorem booted_waiters : Waiters (booted κ root slot).core where
  chan := fun p hp => by by_cases h : p = 0 <;> simp [booted, State.core, Proc.life, h] at hp
  childless := fun p _ hp => by by_cases h : p = 0 <;> simp [booted, State.core, Proc.life, h] at hp

theorem kept_of_run {as : List (Label κ)} {s : State κ}
    (hrun : Run Traced (booted κ root slot, .start) as (s, h)) :
    Kept s.core h ∧ Waiters s.core := by
  have hstep : ∀ (x : State κ × History) a y,
      Rooted x.1.core ∧ Kept x.1.core x.2 ∧ Waiters x.1.core → Traced x a y →
      Rooted y.1.core ∧ Kept y.1.core y.2 ∧ Waiters y.1.core := by
    rintro x a y ⟨hr, hk, hw⟩ htraced
    obtain ⟨t, hstep, rfl⟩ := Option.map_eq_some_iff.mp htraced
    have hmove := move_of_step hstep
    exact ⟨hr.move hmove, hk.growth hr.tree hr.forks hmove.initproc_eq (hmove.growth hr.toMatched),
      hw.move hr hmove⟩
  exact (hrun.invariant hstep ⟨booted_rooted, booted_kept, booted_waiters⟩).2

/-- Every process exits once and is reaped at most once, with its `pid`, by the process that
forked it or, once that has exited, by `init`. Until then its slot stays as it was. Nobody
sleeps in `wait` with a `ZOMBIE` child. -/
theorem exit_and_wait (root : Nat) (slot : Int → Int → Slot) (as : List (Label κ)) (s : State κ)
    (h : History) (hrun : Run Traced (booted κ root slot, .start) as (s, h)) :
    (h.exits.map Exit.who).Nodup ∧ (h.reaps.map Reap.child).Nodup ∧
      (∀ r ∈ h.reaps, ∃ e ∈ h.exits, e.who = r.child ∧ e.pid = r.pid ∧
        (e.forker = some r.reaper ∨
          r.reaper.slot = s.initproc ∧ ∃ f ∈ h.exits, e.forker = some f.who)) ∧
      (∀ e ∈ h.exits, (∃ r ∈ h.reaps, r.child = e.who) ∨
        e.who = h.who e.who.slot ∧ (s.procs e.who.slot).state = .zombie ∧
          (s.procs e.who.slot).pid = e.pid) ∧
      ∀ p q, s.parked p = .waiting → (s.procs p).state = .sleeping → (s.procs q).parent = some p →
        (s.procs q).state ≠ .zombie := by
  obtain ⟨hk, hw⟩ := kept_of_run hrun
  exact ⟨hk.exits_nodup, hk.reaps_nodup, hk.reaps_right, hk.exits_kept, hw.childless⟩

/-- `init` forks slot 1 and waits; slot 1 exits; once the scheduler is back at `init`, it reaps
slot 1. -/
def waitedFor : List (Label (Fin 1)) :=
  initRuns 0 ++ forkCall 0 ++ [.wait 0, .waitScan 0, .scan 0, .resume 0] ++ exitCall 0 ++
    List.replicate 63 (.scan 0) ++ [.schedule 0, .scan 0, .resume 0, .waitScan 0]

theorem exit_and_wait_child :
    ∃ s h, Run Traced (booted (Fin 1) 1 fun _ _ => 0, .start) waitedFor (s, h) ∧
      h.reaps = [⟨⟨1, 1⟩, 2, ⟨0, 0⟩⟩] ∧ (h.exits.map Exit.who).Nodup := by
  have hex : ((execute tracedStep (booted (Fin 1) 1 fun _ _ => 0, .start) waitedFor).map fun x =>
      x.2.reaps) = some [⟨⟨1, 1⟩, 2, ⟨0, 0⟩⟩] := by decide +kernel
  obtain ⟨⟨s, h⟩, hs, hreaps⟩ := Option.map_eq_some_iff.mp hex
  have hrun := Run.of_execute id hs
  exact ⟨s, h, hrun, hreaps, (exit_and_wait 1 (fun _ _ => 0) _ s h hrun).1⟩

end Xv6.Ptable
