import Mathlib.Order.Defs.Unbundled

/-! # Code over a state that may panic

A computation reads and changes a state and either returns or stops with a message. What it
does from one state is said by `Ends`: what holds of the value and the state when it returns,
and of the message when it does not. The rules follow the way such code is written.
-/

namespace Xv6.Lib

abbrev Code (σ α : Type) := StateT σ (Except String) α

variable {σ τ α β ι : Type}

/-- From `s` the code returns with `Q` or stops with a message in `E`. -/
def Ends (x : Code σ α) (s : σ) (Q : α → σ → Prop) (E : String → Prop) : Prop :=
  match x s with
  | .ok (a, t) => Q a t
  | .error e => E e

section Rules

variable {x : Code σ α} {s : σ} {Q Q' : α → σ → Prop} {E E' : String → Prop}

theorem ends_iff : Ends x s Q E ↔
    (∀ a t, x s = .ok (a, t) → Q a t) ∧ ∀ e, x s = .error e → E e := by
  unfold Ends
  cases x s with
  | error e => simp
  | ok r =>
    obtain ⟨a, t⟩ := r
    simp

theorem Ends.returned (h : Ends x s Q E) {a : α} {t : σ} (hok : x s = .ok (a, t)) : Q a t :=
  (ends_iff.mp h).1 a t hok

theorem Ends.stopped (h : Ends x s Q E) {e : String} (herr : x s = .error e) : E e :=
  (ends_iff.mp h).2 e herr

theorem Ends.ok (h : Ends x s Q E) (hE : ∀ e, ¬ E e) : ∃ a t, x s = .ok (a, t) ∧ Q a t := by
  unfold Ends at h
  cases hx : x s with
  | error e =>
    rw [hx] at h
    exact absurd h (hE e)
  | ok r =>
    rw [hx] at h
    exact ⟨r.1, r.2, rfl, h⟩

theorem Ends.mono (h : Ends x s Q E) (hQ : ∀ a t, Q a t → Q' a t) (hE : ∀ e, E e → E' e) : Ends x s Q' E' :=
  ends_iff.mpr ⟨fun a t hok => hQ a t (h.returned hok), fun e herr => hE e (h.stopped herr)⟩

theorem Ends.imp (h : Ends x s Q E) (hQ : ∀ a t, Q a t → Q' a t) : Ends x s Q' E :=
  h.mono hQ fun _ => id

theorem Ends.and (h : Ends x s Q E) (h' : Ends x s Q' E') :
    Ends x s (fun a t => Q a t ∧ Q' a t) fun e => E e ∧ E' e :=
  ends_iff.mpr ⟨fun _ _ hok => ⟨h.returned hok, h'.returned hok⟩,
    fun _ herr => ⟨h.stopped herr, h'.stopped herr⟩⟩

theorem Ends.bind {f : α → Code σ β} {R : β → σ → Prop} (h : Ends x s Q E)
    (hf : ∀ a t, Q a t → Ends (f a) t R E) : Ends (x >>= f) s R E := by
  unfold Ends at h ⊢
  show match (x s >>= fun r => f r.1 r.2) with
    | .ok (a, t) => R a t
    | .error e => E e
  cases hx : x s with
  | error e =>
    rw [hx] at h
    exact h
  | ok r =>
    rw [hx] at h
    exact hf r.1 r.2 h

/-- Code goes on from what its first part returns. -/
theorem bind_of_ok {f : α → Code σ β} {a : α} {t : σ} (h : x s = .ok (a, t)) : (x >>= f) s = f a t := by
  show (x s >>= fun r => f r.1 r.2) = _
  rw [h]
  rfl

theorem get_bind_apply {f : σ → Code σ α} : (get >>= f) s = f s s := rfl

theorem modify_bind_apply {g : σ → σ} {f : PUnit → Code σ α} : (modify g >>= f) s = f ⟨⟩ (g s) := rfl

end Rules

variable {s : σ} {Q : α → σ → Prop} {E : String → Prop}

@[simp] theorem ends_throw {e : String} : Ends (throw e : Code σ α) s Q E ↔ E e := Iff.rfl

@[simp] theorem ends_modify {f : σ → σ} {Q : PUnit → σ → Prop} :
    Ends (modify f : Code σ PUnit) s Q E ↔ Q ⟨⟩ (f s) := Iff.rfl

@[simp] theorem ends_get_bind {f : σ → Code σ α} : Ends (get >>= f) s Q E ↔ Ends (f s) s Q E := Iff.rfl

@[simp] theorem ends_modify_bind {g : σ → σ} {f : PUnit → Code σ α} :
    Ends (modify g >>= f) s Q E ↔ Ends (f ⟨⟩) (g s) Q E := Iff.rfl

theorem ends_ite {c : Prop} [Decidable c] {x y : Code σ α} (ht : c → Ends x s Q E)
    (hf : ¬ c → Ends y s Q E) : Ends (if c then x else y) s Q E := by
  split
  · exact ht ‹_›
  · exact hf ‹_›

/-- A loop over a list, by what holds before the rounds that are left. -/
theorem Ends.forM {l : List ι} {body : ι → Code σ PUnit} (inv : List ι → σ → Prop)
    (hbody : ∀ i l t, inv (i :: l) t → Ends (body i) t (fun _ => inv l) E) (h : inv l s) :
    Ends (l.forM body) s (fun _ => inv []) E := by
  induction l generalizing s with
  | nil => exact h
  | cons i l ih => exact (hbody i l s h).bind fun _ _ => ih

/-! ## Code that only moves along a preorder -/

/-- From every state the code can only return in one that `R` relates it to. -/
def Within (R : σ → σ → Prop) (x : Code σ α) : Prop := ∀ s, Ends x s (fun _ t => R s t) fun _ => True

namespace Within

variable {R : σ → σ → Prop} {x y : Code σ α}

protected theorem throw (e : String) : Within R (throw e : Code σ α) := fun _ => trivial

protected theorem modify {f : σ → σ} (h : ∀ s, R s (f s)) : Within R (modify f : Code σ PUnit) := h

protected theorem get {f : σ → Code σ α} (h : ∀ s, Within R (f s)) : Within R (get >>= f) :=
  fun s => h s s

protected theorem ite {c : Prop} [Decidable c] (hx : Within R x) (hy : Within R y) :
    Within R (if c then x else y) := fun s => ends_ite (fun _ => hx s) fun _ => hy s

protected theorem pure [Std.Refl R] (a : α) : Within R (pure a : Code σ α) := fun s => Std.Refl.refl s

protected theorem bind [IsTrans σ R] {f : α → Code σ β} (h : Within R x) (hf : ∀ a, Within R (f a)) :
    Within R (x >>= f) :=
  fun s => (h s).bind fun a _ ht => (hf a _).imp fun _ _ => IsTrans.trans _ _ _ ht

protected theorem forM [Std.Refl R] [IsTrans σ R] {l : List ι} {body : ι → Code σ PUnit}
    (h : ∀ i, Within R (body i)) : Within R (l.forM body) := by
  induction l with
  | nil => exact .pure _
  | cons i l ih => exact (h i).bind fun _ => ih

end Within

/-! ## Code over a part of the state -/

/-- Code over a part of the state, with what puts the part back. -/
def on (part : σ → τ) (put : σ → τ → σ) (x : Code τ α) : Code σ α := fun s =>
  match x (part s) with
  | .ok (a, t) => .ok (a, put s t)
  | .error e => .error e

theorem ends_on {part : σ → τ} {put : σ → τ → σ} {x : Code τ α} :
    Ends (on part put x) s Q E ↔ Ends x (part s) (fun a t => Q a (put s t)) E := by
  unfold Ends on
  cases x (part s) <;> rfl

end Xv6.Lib
