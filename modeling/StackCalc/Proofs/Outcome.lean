/-!
# Results taken apart

How a computation that may fail ends, told from how its parts end.
-/

namespace StackCalc

variable {ε α β : Type} {x : Except ε α} {f : α → Except ε β}

theorem bind_eq_ok_iff {b : β} : x >>= f = .ok b ↔ ∃ a, x = .ok a ∧ f a = .ok b := by
  cases x with
  | error e => simp [bind, Except.bind]
  | ok a => simp [bind, Except.bind]

theorem bind_eq_error_iff {e : ε} :
    x >>= f = .error e ↔ x = .error e ∨ ∃ a, x = .ok a ∧ f a = .error e := by
  cases x with
  | error e => simp [bind, Except.bind]
  | ok a => simp [bind, Except.bind]

/-- What goes on from a result matters only for the result there is. -/
theorem bind_congr_of_ok {g : α → Except ε β} (h : ∀ a, x = .ok a → f a = g a) :
    x >>= f = x >>= g := by
  cases x with
  | error e => rfl
  | ok a => exact h a rfl

theorem exists_of_isOk (h : x.isOk = true) : ∃ a, x = .ok a := by
  cases x with
  | error e => cases h
  | ok a => exact ⟨a, rfl⟩

theorem exists_of_any {p : α → Bool} (h : x.toOption.any p = true) :
    ∃ a, x = .ok a ∧ p a = true := by
  cases x with
  | error e => cases h
  | ok a => exact ⟨a, rfl, h⟩

theorem mapError_eq_ok_iff {ε' : Type} {g : ε → ε'} {a : α} :
    x.mapError g = .ok a ↔ x = .ok a := by
  constructor
  · intro h
    cases x with
    | error e => cases h
    | ok a => cases h; rfl
  · rintro rfl
    rfl

theorem mapError_eq_error_iff {ε' : Type} {g : ε → ε'} {e' : ε'} :
    x.mapError g = .error e' ↔ ∃ e, x = .error e ∧ g e = e' := by
  constructor
  · intro h
    cases x with
    | error e =>
        cases h
        exact ⟨e, rfl, rfl⟩
    | ok a => cases h
  · rintro ⟨e, rfl, rfl⟩
    rfl

/-- If there is an error, it is one of these. -/
def ErrsWith (P : ε → Prop) (x : Except ε α) : Prop := ∀ e, x = .error e → P e

namespace ErrsWith

variable {P Q : ε → Prop}

theorem ok (a : α) : ErrsWith P (.ok a) := fun _ h => by cases h

theorem error {e : ε} (h : P e) : ErrsWith (α := α) P (.error e) := by
  intro e' he
  cases he
  exact h

theorem imp (hx : ErrsWith P x) (h : ∀ e, P e → Q e) : ErrsWith Q x := fun e he => h e (hx e he)

theorem bind (hx : ErrsWith P x) (hf : ∀ a, x = .ok a → ErrsWith P (f a)) :
    ErrsWith P (x >>= f) := by
  intro e he
  obtain he | ⟨a, ha, he⟩ := bind_eq_error_iff.1 he
  · exact hx e he
  · exact hf a ha e he

end ErrsWith

section State

variable {σ : Type} {act : EStateM ε σ α} {next : α → EStateM ε σ β} {s s' : σ}

theorem run_bind_eq_ok_iff {b : β} :
    (act >>= next) s = .ok b s' ↔ ∃ a s₁, act s = .ok a s₁ ∧ next a s₁ = .ok b s' := by
  change EStateM.bind act next s = _ ↔ _
  unfold EStateM.bind
  cases act s with
  | error e s₁ => simp
  | ok a s₁ =>
      constructor
      · intro h
        exact ⟨a, s₁, rfl, h⟩
      · rintro ⟨a', s', hok, h⟩
        cases hok
        exact h

theorem bind_discard : act >>= (fun a => discard (next a)) = discard (act >>= next) := by
  funext s
  change EStateM.bind _ _ _ = EStateM.map _ (EStateM.bind _ _) _
  unfold EStateM.map EStateM.bind
  cases act s <;> rfl

theorem run_get_bind (next : σ → EStateM ε σ β) (s : σ) : (get >>= next) s = next s s := rfl

end State

end StackCalc
