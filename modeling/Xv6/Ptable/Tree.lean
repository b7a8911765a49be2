import Xv6.Lib.Lineage
import Xv6.Ptable.Placement

/-! # The process tree

Parent pointers of processes that are neither `UNUSED` nor `EMBRYO` lead up to `initproc`. An
exiting process passes its children on before it becomes `ZOMBIE`, so a parent is never one.
-/

namespace Xv6.Ptable

open Function (update)
open Lib

variable {κ : Type}

variable {x : Life} {c d : Core κ} {p : Slot} {f : Life → Life} {e : Event} {w : Doing}
  {root : Nat} {slot : Int → Int → Slot}

def Life.Live (x : Life) : Prop := x.state ≠ .unused ∧ x.state ≠ .embryo

def Life.Alive (x : Life) : Prop := x.Live ∧ x.state ≠ .zombie

def Core.parent (c : Core κ) (p : Slot) : Option Slot := (c.life p).parent

theorem Life.alive_of_state (h : x.state = .sleeping ∨ x.state = .runnable ∨
    x.state = .running) : x.Alive := by
  unfold Life.Alive Life.Live
  rcases h with h | h | h <;> simp [h]

theorem Placed.alive {k : κ} (h : Placed c) (on : (c.cpus k).proc = some p) : (c.life p).Alive :=
  Life.alive_of_state (.inr (.inr (h.running k p on)))

/-! ## What a step does to the tree -/

/-- The entry has the same place in the tree. -/
structure Calm (x y : Life) : Prop where
  pid : y.pid = x.pid
  parent : y.parent = x.parent
  state : y.state = x.state ∨ x.Alive ∧ y.Alive

theorem Calm.refl (x : Life) : Calm x x := ⟨rfl, rfl, .inl rfl⟩

theorem Calm.live {y : Life} (h : Calm x y) : y.Live ↔ x.Live := by
  rcases h.state with heq | ⟨hx, hy⟩
  · unfold Life.Live
    rw [heq]
  · exact iff_of_true hy.1 hx.1

theorem Calm.alive {y : Life} (h : Calm x y) : y.Alive ↔ x.Alive := by
  rcases h.state with heq | ⟨hx, hy⟩
  · unfold Life.Alive Life.Live
    rw [heq]
  · exact iff_of_true hy hx

theorem calm_entry (h : Calm (c.life p) (f (c.life p))) (q : Slot) : Calm (c.life q) (c.entry p f q) := by
  rw [Core.entry_apply]
  split
  · rename_i hq
    rw [hq]
    exact h
  · exact .refl _

theorem entry_of_ne (q : Slot) (h : q ≠ p) : c.entry p f q = c.life q := by
  rw [Core.entry_apply, if_neg h]

theorem entry_self : c.entry p f p = f (c.life p) := by
  rw [Core.entry_apply, if_pos rfl]

def Event.Quiet : Event → Prop
  | .alloc .. | .exit _ | .reap .. => False
  | _ => True

/-- What a step does to parents, to states as far as they matter for the tree, and to the
processes in a `fork` or an `exit`. -/
inductive Growth (c d : Core κ) : Event → Prop
  | calm {e : Event} (quiet : e.Quiet) (life : ∀ q, Calm (c.life q) (d.life q))
      (doing : d.doing = c.doing) : Growth c d e
  | alloc {p np : Slot} (alive : (c.life p).Alive) (free : (c.life np).state = .unused)
      (taken : (d.life np).state = .embryo) (life : ∀ q, q ≠ np → d.life q = c.life q)
      (doing : d.doing = update c.doing p (.allocated np)) : Growth c d (.alloc p np)
  /-- A `fork` goes on with its child, or fails. -/
  | advance {e : Event} {p np : Slot} {w : Doing} (quiet : e.Quiet) (alive : (c.life p).Alive)
      (child : (c.doing p).child = some np)
      (state : (d.life np).state = .embryo ∧ w.child = some np ∨ (d.life np).state = .unused ∧ w = .user)
      (adopted : ∀ n, w = .copied n → d.parent n = some p) (pid : (d.life np).pid = (c.life np).pid)
      (life : ∀ q, q ≠ np → d.life q = c.life q) (doing : d.doing = update c.doing p w) :
      Growth c d e
  | finish {e : Event} {p np : Slot} (quiet : e.Quiet) (alive : (c.life p).Alive)
      (forking : c.doing p = .copied np) (self : d.life np = { c.life np with state := .runnable })
      (life : ∀ q, q ≠ np → d.life q = c.life q)
      (doing : d.doing = update (update c.doing np .user) p .user) : Growth c d e
  | prepare {e : Event} {p : Slot} (quiet : e.Quiet) (alive : (c.life p).Alive)
      (mortal : p ≠ c.initproc) (life : ∀ q, Calm (c.life q) (d.life q))
      (doing : d.doing = update c.doing p .exiting) : Growth c d e
  | exit {p : Slot} (alive : (c.life p).Alive) (exiting : c.doing p = .exiting)
      (left : ExitLife c p d.life)
      (doing : d.doing = update c.doing p .user) : Growth c d (.exit p)
  | reap {p q : Slot} (dead : (c.life q).state = .zombie) (child : c.parent q = some p)
      (free : (d.life q).state = .unused) (life : ∀ r, r ≠ q → d.life r = c.life r)
      (doing : d.doing = c.doing) : Growth c d (.reap p q)

theorem ExitLife.live {l : Slot → Life} (left : ExitLife c p l) (hp : (c.life p).Alive) (q : Slot)
    (hq : (l q).Live) : (c.life q).Live := by
  by_cases hqp : q = p
  · exact hqp ▸ hp.1
  · rcases left.state q hqp with heq | ⟨hsleep, -⟩
    · unfold Life.Live at hq ⊢
      rwa [← heq]
    · exact (Life.alive_of_state (.inl hsleep)).1

theorem ExitLife.alive {l : Slot → Life} {q : Slot} (left : ExitLife c p l) (hq : q ≠ p)
    (hx : (c.life q).Alive) : (l q).Alive := by
  rcases left.state q hq with heq | ⟨-, hrun⟩
  · unfold Life.Alive Life.Live at hx ⊢
    rwa [heq]
  · exact Life.alive_of_state (.inr (.inl hrun))

theorem Growth.live (h : Growth c d e) (q : Slot) (hq : (d.life q).Live) :
    (c.life q).Live ∨ ∃ p, c.doing p = .copied q := by
  cases h with
  | calm _ life | prepare _ _ _ life => exact .inl ((life q).live.mp hq)
  | @alloc p np _ _ taken life =>
    have hne : q ≠ np := by
      rintro rfl
      exact hq.2 taken
    exact .inl (life q hne ▸ hq)
  | @advance _ p np w _ _ _ state _ _ life =>
    have hne : q ≠ np := by
      rintro rfl
      rcases state with ⟨hst, -⟩ | ⟨hst, -⟩
      · exact hq.2 hst
      · exact hq.1 hst
    exact .inl (life q hne ▸ hq)
  | @finish _ p np _ _ forking _ life =>
    by_cases hqn : q = np
    · exact .inr ⟨p, hqn ▸ forking⟩
    · exact .inl (life q hqn ▸ hq)
  | exit alive _ left => exact .inl (left.live alive q hq)
  | @reap p r _ _ free life =>
    have hne : q ≠ r := by
      rintro rfl
      exact hq.1 free
    exact .inl (life q hne ▸ hq)

section Growth

variable [DecidableEq κ]

theorem Move.initproc_eq (h : Move c e d) : d.initproc = c.initproc := by
  cases h <;> rfl

theorem Move.growth (hm : Matched c) (h : Move c e d) : Growth c d e := by
  obtain ⟨hp, hf⟩ := hm
  cases h with
  | stutter | goto | shift => exact .calm trivial (fun _ => .refl _) rfl
  | @wake l woken =>
    refine .calm trivial (fun q => ?_) rfl
    rcases woken q with heq | ⟨hs, heq⟩
    · dsimp only
      rw [heq]
      exact .refl _
    · dsimp only
      rw [heq]
      exact ⟨rfl, rfl, .inr ⟨Life.alive_of_state (.inl hs), Life.alive_of_state (.inr (.inl rfl))⟩⟩
  | dispatch idle ready busy =>
    refine .calm trivial (calm_entry ⟨rfl, rfl, .inr ⟨?_, ?_⟩⟩) rfl
    · exact Life.alive_of_state (.inr (.inl ready))
    · exact Life.alive_of_state (.inr (.inr rfl))
  | awake | enter | store => exact .calm trivial (calm_entry ⟨rfl, rfl, .inl rfl⟩) rfl
  | yield on into =>
    refine .calm trivial (calm_entry ⟨rfl, rfl, .inr ⟨hp.alive on.1, Life.alive_of_state ?_⟩⟩) rfl
    rcases into with ⟨rfl, -⟩ | ⟨rfl, -⟩ <;> simp
  | sleep on into =>
    refine .calm trivial (calm_entry ⟨rfl, rfl, .inr ⟨hp.alive on, ?_⟩⟩) rfl
    exact Life.alive_of_state (.inl rfl)
  | alloc on user free => exact .alloc (hp.alive on.1) free (by simp [entry_self]) entry_of_ne rfl
  | fail on forking =>
    exact .advance trivial (hp.alive on.1) (child_of_failing forking) (.inr ⟨by simp [entry_self], rfl⟩)
      nofun (by simp [entry_self]) entry_of_ne rfl
  | init on forking | inherit on forking =>
    have hchild := congrArg Doing.child forking
    refine .advance trivial (hp.alive on.1) hchild ?_ ?_ (by simp [entry_self]) entry_of_ne rfl
    · exact .inl ⟨by simp [entry_self, hf.embryo _ _ hchild], rfl⟩
    · nofun
  | @adopt k p np files on forking =>
    have hchild := congrArg Doing.child forking
    refine .advance (w := .copied np) trivial (hp.alive on.1) hchild
      (.inl ⟨by simp [entry_self, hf.embryo p np hchild], rfl⟩) ?_ (by simp [entry_self])
      entry_of_ne rfl
    rintro n ⟨⟩
    simp [Core.parent, entry_self]
  | finish on forking => exact .finish trivial (hp.alive on.1) forking entry_self entry_of_ne rfl
  | prepare on user mortal =>
    exact .prepare trivial (hp.alive on.1) mortal (calm_entry ⟨rfl, rfl, .inl rfl⟩) rfl
  | exit on exiting left => exact .exit (hp.alive on.1) exiting left rfl
  | reap on scanning dead child => exact .reap dead child (by simp [entry_self]) entry_of_ne rfl

end Growth

/-! ## The invariant -/

structure Tree (c : Core κ) : Prop where
  top : c.parent c.initproc = none
  initAlive : (c.life c.initproc).Alive
  parent : ∀ p, (c.life p).Live → p ≠ c.initproc → ∃ a, c.parent p = some a ∧ (c.life a).Alive
  rooted : ∀ p, (c.life p).Live → ∃ l, Lineage c.parent c.initproc p l
  /-- A process in a `fork` or an `exit` is alive. -/
  busy : ∀ p, c.doing p ≠ .user → (c.life p).Alive
  adopted : ∀ p np, c.doing p = .copied np → c.parent np = some p
  mortal : ∀ p, c.doing p = .exiting → p ≠ c.initproc

theorem doing_update {f g : Slot → Doing} (h : g = update f p w) (q : Slot) :
    q = p ∧ g q = w ∨ q ≠ p ∧ g q = f q := by
  rw [h, Function.update_apply]
  split
  · exact .inl ⟨‹_›, rfl⟩
  · exact .inr ⟨‹_›, rfl⟩

theorem slot_update {view : Doing → Option Slot} {f g : Slot → Doing} (h : g = update f p w)
    (hw : view w = none ∨ view w = view (f p)) (q n : Slot) (hq : view (g q) = some n) :
    view (f q) = some n := by
  rcases doing_update h q with ⟨rfl, heq⟩ | ⟨-, heq⟩
  · rw [heq] at hq
    rcases hw with hw | hw
    · exact absurd (hw.symm.trans hq) nofun
    · exact hw.symm.trans hq
  · rwa [heq] at hq

section Steps

variable (h : Tree c) (hinit : d.initproc = c.initproc)

include h hinit

/-- What a process has in the tree follows from what its parent had. -/
theorem Tree.frame (hparent : ∀ p, (d.life p).Live → d.parent p = c.parent p)
    (hlive : ∀ p, (d.life p).Live → (c.life p).Live ∨ ∃ a, c.parent p = some a ∧ (c.life a).Alive)
    (halive : ∀ p, (c.life p).Alive → (d.life p).Alive) (hbusy : ∀ p, d.doing p ≠ .user → (d.life p).Alive)
    (hadopted : ∀ p np, d.doing p = .copied np → d.parent np = some p)
    (hmortal : ∀ p, d.doing p = .exiting → p ≠ d.initproc) : Tree d := by
  have hinitAlive := halive _ h.initAlive
  have hchild : ∀ p, (d.life p).Live → p ≠ c.initproc → ∃ a, c.parent p = some a ∧ (c.life a).Alive := by
    intro p hp hne
    rcases hlive p hp with hold | hnew
    · exact h.parent p hold hne
    · exact hnew
  -- the way up leads through live processes only
  have hup : ∀ p a, (d.life p).Live → c.parent p = some a → (d.life a).Live := by
    intro p a hp ha
    have hne : p ≠ c.initproc := by
      rintro rfl
      rw [h.top] at ha
      cases ha
    obtain ⟨a', ha', halive'⟩ := hchild p hp hne
    obtain rfl := Option.some.inj (ha.symm.trans ha')
    exact (halive a halive').1
  refine ⟨?_, hinit ▸ hinitAlive, fun p hp hne => ?_, fun p hp => ?_, hbusy, hadopted, hmortal⟩
  · rw [hinit, hparent _ hinitAlive.1, h.top]
  · obtain ⟨a, ha, halive'⟩ := hchild p hp (hinit ▸ hne)
    exact ⟨a, (hparent p hp).trans ha, halive a halive'⟩
  have hold : ∃ l, Lineage c.parent c.initproc p l := by
    rcases hlive p hp with hold | ⟨a, ha, halive'⟩
    · exact h.rooted p hold
    · obtain ⟨l, hl⟩ := h.rooted a halive'.1
      exact ⟨p :: l, .up ha hl⟩
  obtain ⟨l, hl⟩ := hold
  refine ⟨l, ?_⟩
  rw [hinit]
  exact hl.congr fun x hx => hparent x (hl.forall_mem hup hp x hx)

/-- A `fork` works on its child, which the tree does not have yet. -/
theorem Tree.fork {np : Slot} (hp : (c.life p).Alive)
    (hlife : ∀ q, q ≠ np → d.life q = c.life q) (hold : ¬ (c.life np).Live) (hnew : ¬ (d.life np).Live)
    (hdoing : d.doing = update c.doing p w) (hw : w ≠ .exiting)
    (hadopted : ∀ n, w = .copied n → d.parent n = some p)
    (hother : ∀ q nq, q ≠ p → (c.doing q).child = some nq → nq ≠ np) : Tree d := by
  have hlive : ∀ q, (d.life q).Live → q ≠ np := fun q hq heq => hnew (heq ▸ hq)
  have halive : ∀ q, (c.life q).Alive → (d.life q).Alive := by
    intro q hq
    rw [hlife q fun heq => hold (heq ▸ hq.1)]
    exact hq
  refine h.frame hinit (fun q hq => ?_) (fun q hq => .inl ?_) halive ?_ ?_ ?_
  · exact congrArg Life.parent (hlife q (hlive q hq))
  · rw [← hlife q (hlive q hq)]
    exact hq
  · intro q hq
    rcases doing_update hdoing q with ⟨rfl, -⟩ | ⟨-, heq⟩
    · exact halive q hp
    · exact halive q (h.busy q (heq ▸ hq))
  · intro q nq hq
    rcases doing_update hdoing q with ⟨rfl, heq⟩ | ⟨hqp, heq⟩
    · exact hadopted nq (heq.symm.trans hq)
    · rw [heq] at hq
      have hne := hother q nq hqp (congrArg Doing.child hq)
      exact (congrArg Life.parent (hlife nq hne)).trans (h.adopted q nq hq)
  · intro q hq
    rw [hinit]
    rcases doing_update hdoing q with ⟨-, heq⟩ | ⟨-, heq⟩
    · exact absurd (heq.symm.trans hq) hw
    · exact h.mortal q (heq.symm.trans hq)

theorem Tree.finish {np : Slot} (hp : (c.life p).Alive)
    (hnp : (c.life np).state = .embryo) (forking : c.doing p = .copied np)
    (hself : d.life np = { c.life np with state := .runnable }) (hlife : ∀ q, q ≠ np → d.life q = c.life q)
    (hdoing : d.doing = update (update c.doing np .user) p .user) : Tree d := by
  have hparent : ∀ q, d.parent q = c.parent q := by
    intro q
    unfold Core.parent
    by_cases hq : q = np
    · rw [hq, hself]
    · rw [hlife q hq]
  have halive : ∀ q, (c.life q).Alive → (d.life q).Alive := by
    intro q hq
    rw [hlife q]
    · exact hq
    · rintro rfl
      exact hq.1.2 hnp
  have hbusy : ∀ q w, d.doing q = w → w ≠ .user → c.doing q = w := by
    intro q w hq hw
    rcases doing_update hdoing q with ⟨-, heq⟩ | ⟨-, heq⟩
    · exact absurd (hq.symm.trans heq) hw
    · rcases doing_update rfl q with ⟨-, heq'⟩ | ⟨-, heq'⟩
      · exact absurd (hq.symm.trans (heq.trans heq')) hw
      · exact (heq.trans heq').symm.trans hq
  refine h.frame hinit (fun q _ => hparent q) (fun q hq => ?_) halive (fun q hq => ?_)
    (fun q nq hq => ?_) (fun q hq => ?_)
  · by_cases hqn : q = np
    · exact .inr ⟨p, hqn ▸ h.adopted p np forking, hp⟩
    · rw [hlife q hqn] at hq
      exact .inl hq
  · exact halive q (h.busy q (hbusy q _ rfl hq ▸ hq))
  · exact (hparent nq).trans (h.adopted q nq (hbusy q _ hq (by simp)))
  · rw [hinit]
    exact h.mortal q (hbusy q _ hq (by simp))

theorem Tree.calm (hlife : ∀ q, Calm (c.life q) (d.life q))
    (hdoing : ∀ q, d.doing q = c.doing q ∨
      d.doing q = .exiting ∧ (c.life q).Alive ∧ q ≠ c.initproc) : Tree d := by
  refine h.frame hinit (fun q _ => (hlife q).parent) (fun q hq => .inl ((hlife q).live.mp hq))
    (fun q hq => (hlife q).alive.mpr hq) (fun q hq => ?_) (fun q nq hq => ?_) (fun q hq => ?_)
  · rcases hdoing q with heq | ⟨-, halive, -⟩
    · exact (hlife q).alive.mpr (h.busy q (heq ▸ hq))
    · exact (hlife q).alive.mpr halive
  · rcases hdoing q with heq | ⟨heq, -⟩
    · exact (hlife nq).parent.trans (h.adopted q nq (heq.symm.trans hq))
    · rw [heq] at hq
      cases hq
  · rw [hinit]
    rcases hdoing q with heq | ⟨-, -, hne⟩
    · exact h.mortal q (heq.symm.trans hq)
    · exact hne

theorem Tree.reap {q : Slot} (hf : Forks c)
    (dead : (c.life q).state = .zombie) (free : (d.life q).state = .unused)
    (hlife : ∀ r, r ≠ q → d.life r = c.life r) (hdoing : d.doing = c.doing) : Tree d := by
  have hgone : ∀ r, (d.life r).Live → r ≠ q := by
    rintro r hr rfl
    exact hr.1 free
  have halive : ∀ r, (c.life r).Alive → (d.life r).Alive := by
    intro r hr
    rw [hlife r]
    · exact hr
    · rintro rfl
      exact hr.2 dead
  refine h.frame hinit (fun r hr => ?_) (fun r hr => .inl ?_) halive (fun r hr => ?_)
    (fun r nr hr => ?_) (fun r hr => ?_)
  · exact congrArg Life.parent (hlife r (hgone r hr))
  · rw [← hlife r (hgone r hr)]
    exact hr
  · exact halive r (h.busy r (hdoing ▸ hr))
  · rw [hdoing] at hr
    refine (congrArg Life.parent (hlife nr ?_)).trans (h.adopted r nr hr)
    rintro rfl
    rw [hf.embryo r nr (congrArg Doing.child hr)] at dead
    cases dead
  · rw [hinit]
    exact h.mortal r (hdoing ▸ hr)

/-- The children of a process that exits become children of `init`. -/
theorem Tree.exit (hp : (c.life p).Alive)
    (exiting : c.doing p = .exiting) (left : ExitLife c p d.life)
    (hdoing : d.doing = update c.doing p .user) : Tree d := by
  have hparent : ∀ q, d.parent q =
      if c.parent q = some p then some c.initproc else c.parent q := left.parent
  have hmortal := h.mortal p exiting
  have halive : ∀ q, q ≠ p → (c.life q).Alive → (d.life q).Alive := fun q => left.alive
  have hlive := left.live hp
  have hinitAlive := halive c.initproc hmortal.symm h.initAlive
  have hdoing' : ∀ q w, d.doing q = w → w ≠ .user → c.doing q = w ∧ q ≠ p := by
    intro q w hq hw
    rcases doing_update hdoing q with ⟨-, heq⟩ | ⟨hqp, heq⟩
    · exact absurd (hq.symm.trans heq) hw
    · exact ⟨heq.symm.trans hq, hqp⟩
  refine ⟨?_, hinit ▸ hinitAlive, fun q hq hne => ?_, fun q hq => ?_, fun q hq => ?_, fun q np hq => ?_,
    fun q hq => ?_⟩
  · rw [hinit, hparent, h.top]
    rfl
  · rw [hparent]
    obtain ⟨a, ha, halive'⟩ := h.parent q (hlive q hq) (hinit ▸ hne)
    split
    · exact ⟨c.initproc, rfl, hinitAlive⟩
    · rename_i hap
      rw [ha] at hap
      exact ⟨a, ha, halive a (fun heq => hap (congrArg some heq)) halive'⟩
  · obtain ⟨w, hw⟩ := h.rooted q (hlive q hq)
    rw [hinit]
    refine hw.handOver (p := p) h.top (fun x hx => ?_) (fun x hx => ?_)
    · rw [hparent, if_pos hx]
    · rw [hparent, if_neg hx]
  · obtain ⟨hold, hqp⟩ := hdoing' q _ rfl hq
    exact halive q hqp (h.busy q (hold ▸ hq))
  · obtain ⟨hold, hqp⟩ := hdoing' q _ hq (by simp)
    have hnp := h.adopted q np hold
    rw [hparent, if_neg (by simp [hnp, hqp]), hnp]
  · rw [hinit]
    exact h.mortal q (hdoing' q _ hq (by simp)).1

theorem Tree.growth (hf : Forks c) (hgrowth : Growth c d e) :
    Tree d := by
  cases hgrowth with
  | calm quiet life doing => exact h.calm hinit life fun q => .inl (by rw [doing])
  | alloc alive free taken life doing =>
    refine h.fork hinit alive life (fun hl => hl.1 free) (fun hl => hl.2 taken) doing nofun nofun ?_
    rintro q nq - hq rfl
    rw [hf.embryo q nq hq] at free
    cases free
  | @advance _ p np w quiet alive child state adopted pid life doing =>
    have hold : ¬ (c.life np).Live := fun hl => hl.2 (hf.embryo p np child)
    have hothers : ∀ q nq, q ≠ p → (c.doing q).child = some nq → nq ≠ np :=
      fun q nq hqp hq heq => hqp (hf.distinct q p nq hq (heq ▸ child))
    rcases state with ⟨hst, hw⟩ | ⟨hst, rfl⟩
    · refine h.fork hinit alive life hold (fun hl => hl.2 hst) doing ?_ adopted hothers
      rintro rfl
      cases hw
    · exact h.fork hinit alive life hold (fun hl => hl.1 hst) doing nofun adopted hothers
  | @finish _ p np quiet alive forking self life doing =>
    exact h.finish hinit alive (hf.embryo p np (congrArg Doing.child forking)) forking self life doing
  | prepare quiet alive mortal life doing =>
    refine h.calm hinit life fun q => ?_
    rcases doing_update doing q with ⟨rfl, heq⟩ | ⟨-, heq⟩
    · exact .inr ⟨heq, alive, mortal⟩
    · exact .inl heq
  | exit alive exiting left doing => exact h.exit hinit alive exiting left doing
  | reap dead child free life doing => exact h.reap hinit hf dead free life doing

end Steps

variable [DecidableEq κ]

structure Rooted (c : Core κ) : Prop extends Matched c where
  tree : Tree c

theorem Rooted.move (h : Rooted c) (hmove : Move c e d) : Rooted d :=
  ⟨h.toMatched.move hmove, h.tree.growth hmove.initproc_eq h.forks (hmove.growth h.toMatched)⟩

/-! ## Runs -/

omit [DecidableEq κ] in
theorem booted_rooted : Rooted (booted κ root slot).core := by
  have hlive : ∀ p, ((booted κ root slot).core.life p).Live → p = 0 := by
    intro p hp
    by_contra hne
    exact hp.1 (by simp [booted, State.core, Proc.life, blank, hne])
  have htop : (booted κ root slot).core.parent 0 = none := rfl
  refine ⟨booted_matched, htop, Life.alive_of_state (.inr (.inl rfl)), fun p hp hne => ?_,
    fun p hp => ?_, fun p hp => absurd rfl hp, fun p np hp => ?_, fun p hp => ?_⟩
  · exact absurd (hlive p hp) hne
  · obtain rfl := hlive p hp
    exact ⟨_, .root htop⟩
  · cases hp
  · cases hp

theorem rooted_of_run {as : List (Label κ)} {s : State κ}
    (hrun : Run Step (booted κ root slot) as s) : Rooted s.core := by
  have hstep : ∀ (u : State κ) a v, Rooted u.core → Step u a v → Rooted v.core :=
    fun _ _ _ h hstep => h.move (move_of_step hstep)
  exact hrun.invariant hstep booted_rooted

/-- The processes that the loop of `do_maxproc` passes on its way up from `p`. -/
def State.lineage (s : State κ) (p : Slot) : Option (List Slot) :=
  climb (fun q => (s.procs q).parent) nproc (some p)

/-- In every state reached, the parent pointers of the live processes form a tree with
`initproc` at the root, and the walk up from each of them ends there. -/
theorem process_tree (root : Nat) (slot : Int → Int → Slot) (as : List (Label κ)) (s : State κ)
    (hrun : Run Step (booted κ root slot) as s) :
    (s.procs s.initproc).life.Alive ∧ (s.procs s.initproc).parent = none ∧
      ∀ p, (s.procs p).life.Live →
        (p ≠ s.initproc → ∃ a, (s.procs p).parent = some a ∧ (s.procs a).life.Alive) ∧
        ¬ Relation.TransGen (fun x y => (s.procs x).parent = some y) p p ∧
        ∃ l, s.lineage p = some l ∧ l.getLast? = some s.initproc := by
  have htree := (rooted_of_run hrun).tree
  refine ⟨htree.initAlive, htree.top, fun p hp => ⟨htree.parent p hp, ?_⟩⟩
  obtain ⟨l, hl⟩ := htree.rooted p hp
  have hcard : climb (fun q => (s.procs q).parent) (Fintype.card Slot) (some p) = some l :=
    hl.climb_card
  rw [Fintype.card_fin] at hcard
  exact ⟨hl.not_cycle, l, hcard, hl.getLast?⟩

/-- `init` forks slot 1, which forks slot 2 and exits. -/
def orphaned : List (Label (Fin 1)) :=
  initRuns 0 ++ forkCall 0 ++ [.yield 0, .scan 0, .resume 0] ++ forkCall 0 ++ exitCall 0

theorem process_tree_orphan :
    ∃ s, Run Step (booted (Fin 1) 1 fun _ _ => 0) orphaned s ∧ (s.procs 1).state = .zombie ∧
      (s.procs 2).life.Live ∧ ∃ l, s.lineage 2 = some l ∧ l.getLast? = some s.initproc := by
  refine Run.found id (fun s => (s.procs 1).state = .zombie ∧ (s.procs 2).state = .runnable)
    (by decide +kernel) fun s hrun h => ⟨h.1, ?_⟩
  have hlive : (s.procs 2).life.Live := (Life.alive_of_state (.inr (.inl h.2))).1
  exact ⟨hlive, ((process_tree 1 (fun _ _ => 0) _ s hrun).2.2 2 hlive).2.2⟩

end Xv6.Ptable
