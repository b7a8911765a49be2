/-! # Runs of labelled transition systems

A step relation over arbitrary states and labels, its finite runs, and the two
induction rules the safety results use: an invariant of single steps holds along
every run, and an invariant that needs a side condition on each step holds along
every run whose steps all meet it. Where the steps are computed, runs are too.
-/

namespace Xv6.Lib

variable {σ α : Type _}

/-- A finite run: the labels taken, from the first state to the last. -/
inductive Run (step : σ → α → σ → Prop) : σ → List α → σ → Prop
  | nil (s : σ) : Run step s [] s
  | cons {s t u : σ} {a : α} {as : List α} :
      step s a t → Run step t as u → Run step s (a :: as) u

/-- The part of a step relation whose steps meet a condition on the state before
the step and its label. -/
def Guarded (step : σ → α → σ → Prop) (ok : σ → α → Prop) : σ → α → σ → Prop :=
  fun s a t => ok s a ∧ step s a t

variable {step step' : σ → α → σ → Prop} {ok ok' : σ → α → Prop} {s t t' u : σ} {a : α}
  {as bs : List α}

theorem Run.append (h1 : Run step s as t) (h2 : Run step t bs u) : Run step s (as ++ bs) u := by
  induction h1 with
  | nil s => exact h2
  | cons hstep _ ih => exact .cons hstep (ih h2)

theorem Run.single (h : step s a t) : Run step s [a] t := .cons h (.nil t)

theorem Run.snoc (h1 : Run step s as t) (h2 : step t a u) : Run step s (as ++ [a]) u :=
  h1.append (.single h2)

theorem Run.cons_inv (h : Run step s (a :: as) u) : ∃ t, step s a t ∧ Run step t as u := by
  cases h with
  | cons hstep hrest => exact ⟨_, hstep, hrest⟩

theorem Run.append_inv (h : Run step s (as ++ bs) u) : ∃ t, Run step s as t ∧ Run step t bs u := by
  induction as generalizing s with
  | nil => exact ⟨s, .nil s, h⟩
  | cons a as ih =>
    obtain ⟨v, hstep, hrest⟩ := h.cons_inv
    obtain ⟨t, h1, h2⟩ := ih hrest
    exact ⟨t, .cons hstep h1, h2⟩

theorem Run.unique (hdet : ∀ s a t t', step s a t → step s a t' → t = t') (h : Run step s as t)
    (h' : Run step s as t') : t = t' := by
  induction h with
  | nil s => cases h'; rfl
  | cons hstep _ ih =>
    obtain ⟨v, hstep', hrest'⟩ := h'.cons_inv
    obtain rfl := hdet _ _ _ _ hstep hstep'
    exact ih hrest'

theorem Run.invariant {inv : σ → Prop}
    (hstep : ∀ s a t, inv s → step s a t → inv t) {s t : σ} (hrun : Run step s as t) (h : inv s) :
    inv t := by
  induction hrun with
  | nil s => exact h
  | cons hs _ ih => exact ih (hstep _ _ _ h hs)

theorem Run.invariant_of_labels (ok : α → Prop) (inv : σ → Prop)
    (hstep : ∀ s a t, inv s → ok a → step s a t → inv t) {s t : σ}
    (hrun : Run step s as t) (hok : ∀ a ∈ as, ok a) (h : inv s) : inv t := by
  induction hrun with
  | nil s => exact h
  | cons hs _ ih =>
    exact ih (fun a ha => hok a (List.mem_cons_of_mem _ ha))
      (hstep _ _ _ h (hok _ List.mem_cons_self) hs)

theorem Run.invariant_of_guarded {inv : σ → Prop}
    (hstep : ∀ s a t, inv s → ok s a → step s a t → inv t) {s t : σ}
    (hrun : Run (Guarded step ok) s as t) (h : inv s) : inv t :=
  hrun.invariant (fun s a t hi hg => hstep s a t hi hg.1 hg.2) h

theorem Run.mono (h : ∀ s a t, step s a t → step' s a t) (hrun : Run step s as t) :
    Run step' s as t := by
  induction hrun with
  | nil s => exact .nil s
  | cons hs _ ih => exact .cons (h _ _ _ hs) ih

theorem Run.of_guarded (hrun : Run (Guarded step ok) s as t) : Run step s as t :=
  hrun.mono fun _ _ _ hs => hs.2

theorem Run.exists_of_guarded {q : σ → Prop} (ok : σ → α → Prop)
    (h : ∃ t, Run (Guarded step ok) s as t ∧ q t) : ∃ t, Run step s as t ∧ q t := by
  obtain ⟨t, hrun, hq⟩ := h
  exact ⟨t, hrun.of_guarded, hq⟩

theorem Run.guarded_mono (hweaker : ∀ s a, ok s a → ok' s a)
    (hrun : Run (Guarded step ok) s as t) : Run (Guarded step ok') s as t :=
  hrun.mono fun _ _ _ hs => ⟨hweaker _ _ hs.1, hs.2⟩

theorem Run.guard (hrun : Run step s as t) (hok : ∀ a ∈ as, ∀ s, ok s a) :
    Run (Guarded step ok) s as t := by
  induction hrun with
  | nil s => exact .nil s
  | cons hs _ ih =>
    exact .cons ⟨hok _ List.mem_cons_self _, hs⟩ (ih fun a ha => hok a (List.mem_cons_of_mem _ ha))

/-- Two relations with the same steps from the states that the invariant admits. -/
theorem Run.congr_of_invariant (inv : σ → Prop) (hsame : ∀ s a t, inv s → (step s a t ↔ step' s a t))
    (hinv : ∀ s a t, inv s → step s a t → inv t) (h : inv s) : Run step s as t ↔ Run step' s as t := by
  constructor
  · intro hrun
    induction hrun with
    | nil s => exact .nil s
    | cons hs _ ih => exact .cons ((hsame _ _ _ h).mp hs) (ih (hinv _ _ _ h hs))
  intro hrun
  induction hrun with
  | nil s => exact .nil s
  | cons hs _ ih =>
    have hs' := (hsame _ _ _ h).mpr hs
    exact .cons hs' (ih (hinv _ _ _ h hs'))

/-- If a step meets the condition exactly when it leads to a good state, a run stays good
exactly when all its steps meet the condition. -/
theorem Run.guarded_iff {good : σ → Prop}
    (inv : σ → Prop) (hgood : ∀ s a t, inv s → step s a t → (good t ↔ ok s a))
    (hinv : ∀ s a t, inv s → ok s a → step s a t → inv t) (h : inv s) :
    Run (fun s a t => step s a t ∧ good t) s as t ↔ Run (Guarded step ok) s as t :=
  congr_of_invariant inv
    (fun s a t hi => and_comm.trans (and_congr_left fun hs => hgood s a t hi hs))
    (fun s a t hi hs => hinv s a t hi ((hgood s a t hi hs.1).mp hs.2) hs.1) h

/-! ## Executable step functions -/

def execute (f : σ → α → Option σ) (s : σ) : List α → Option σ
  | [] => some s
  | a :: as => (f s a).bind fun t => execute f t as

theorem Run.of_execute {f : σ → α → Option σ} (hstep : ∀ {s a t}, f s a = some t → step s a t)
    (h : execute f s as = some t) : Run step s as t := by
  induction as generalizing s with
  | nil => cases h; exact .nil _
  | cons a as ih =>
    obtain ⟨u, hu, hrest⟩ := Option.bind_eq_some_iff.mp h
    exact .cons (hstep hu) (ih hrest)

theorem exists_of_any {x : Option σ} {p : σ → Prop} [DecidablePred p]
    (h : x.any (fun t => decide (p t)) = true) : ∃ t, x = some t ∧ p t := by
  simpa [Option.any_eq_true] using h

theorem Run.found {f : σ → α → Option σ} {q : σ → Prop} (hstep : ∀ {s a t}, f s a = some t → step s a t)
    (p : σ → Prop) [DecidablePred p] (h : (execute f s as).any (fun t => decide (p t)) = true)
    (hq : ∀ t, Run step s as t → p t → q t) : ∃ t, Run step s as t ∧ q t := by
  obtain ⟨t, ht, hp⟩ := exists_of_any h
  have hrun := Run.of_execute hstep ht
  exact ⟨t, hrun, hq t hrun hp⟩

/-- The same, stopping at the first step that does not meet the condition. -/
def executeOk (f : σ → α → Option σ) (ok : σ → α → Prop) [∀ s a, Decidable (ok s a)] (s : σ)
    (as : List α) : Option σ :=
  execute (fun s a => if ok s a then f s a else none) s as

theorem Run.foundOk {f : σ → α → Option σ} [∀ s a, Decidable (ok s a)] {q : σ → Prop}
    (hstep : ∀ {s a t}, f s a = some t → step s a t) (p : σ → Prop) [DecidablePred p]
    (h : (executeOk f ok s as).any (fun t => decide (p t)) = true)
    (hq : ∀ t, Run (Guarded step ok) s as t → p t → q t) : ∃ t, Run (Guarded step ok) s as t ∧ q t := by
  refine Run.found (fun hs => ?_) p h hq
  split at hs
  · exact ⟨‹_›, hstep hs⟩
  · cases hs

end Xv6.Lib
