/-! # Peeling apart computations that may fail -/

namespace Xv6.Lib

variable {ε α β : Type}

theorem ok_bind (a : α) (f : α → Except ε β) : ((.ok a : Except ε α) >>= f) = f a := rfl

theorem bind_eq_ok {x : Except ε α} {f : α → Except ε β} {b : β} :
    (x >>= f) = .ok b ↔ ∃ a, x = .ok a ∧ f a = .ok b := by
  cases x with
  | error e =>
    constructor
    · intro h
      cases h
    · rintro ⟨a, h, _⟩
      cases h
  | ok a =>
    constructor
    · intro h
      exact ⟨a, rfl, h⟩
    · rintro ⟨_, ha, h⟩
      cases ha
      exact h

theorem bind_eq_error {x : Except ε α} {f : α → Except ε β} {e : ε} :
    (x >>= f) = .error e ↔ x = .error e ∨ ∃ a, x = .ok a ∧ f a = .error e := by
  cases x with
  | error e' =>
    constructor
    · intro h
      cases h
      exact .inl rfl
    · rintro (h | ⟨a, h, _⟩)
      · cases h
        rfl
      · cases h
  | ok a =>
    constructor
    · intro h
      exact .inr ⟨a, rfl, h⟩
    · rintro (h | ⟨_, ha, h⟩)
      · cases h
      · cases ha
        exact h

/-- The computation gives a value with `Q` or fails with an error in `E`. -/
def Gives (x : Except ε α) (Q : α → Prop) (E : ε → Prop) : Prop :=
  (∀ a, x = .ok a → Q a) ∧ ∀ e, x = .error e → E e

section Gives

variable {x y : Except ε α} {Q Q' : α → Prop} {E E' : ε → Prop}

theorem Gives.ok {a : α} (h : Q a) : Gives (.ok a) Q E :=
  ⟨fun _ ha => Except.ok.inj ha ▸ h, nofun⟩

theorem Gives.error {e : ε} (h : E e) : Gives (.error e) Q E :=
  ⟨nofun, fun _ he => Except.error.inj he ▸ h⟩

theorem Gives.value (h : Gives x Q E) {a : α} (hx : x = .ok a) : Q a := h.1 a hx

theorem Gives.fault (h : Gives x Q E) {e : ε} (hx : x = .error e) : E e := h.2 e hx

theorem Gives.mono (h : Gives x Q E) (hQ : ∀ a, Q a → Q' a) (hE : ∀ e, E e → E' e) : Gives x Q' E' :=
  ⟨fun a hx => hQ a (h.value hx), fun e hx => hE e (h.fault hx)⟩

theorem Gives.ran (h : Gives x Q E) : Gives x (fun a => x = .ok a ∧ Q a) E :=
  ⟨fun _ hx => ⟨hx, h.value hx⟩, fun _ => h.fault⟩

theorem Gives.bind {f : α → Except ε β} {R : β → Prop} (h : Gives x Q E) (hf : ∀ a, Q a → Gives (f a) R E) :
    Gives (x >>= f) R E := by
  cases x with
  | error e => exact .error (h.fault rfl)
  | ok a => exact hf a (h.value rfl)

theorem gives_ite {c : Prop} [Decidable c] (hx : c → Gives x Q E) (hy : ¬ c → Gives y Q E) :
    Gives (if c then x else y) Q E := by
  split
  · exact hx ‹_›
  · exact hy ‹_›

end Gives

theorem eq_ok_of_toOption {x : Except ε α} {a : α} (h : x.toOption = some a) : x = .ok a := by
  cases x with
  | error e => cases h
  | ok b =>
    cases h
    rfl

theorem ok_of_any {x : Except ε α} {p : α → Prop} [DecidablePred p]
    (h : x.toOption.any (fun a => decide (p a)) = true) : ∃ a, x = .ok a ∧ p a := by
  cases x with
  | error e => cases h
  | ok a => exact ⟨a, rfl, of_decide_eq_true h⟩

end Xv6.Lib
