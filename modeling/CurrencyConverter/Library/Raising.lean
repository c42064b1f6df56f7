/-!
# What a computation may throw

`Raises Q x` bounds the exceptions of `x`.  A block is followed statement by
statement; a handler turns the bound of its block into its own.
-/

namespace Raising

variable {ε α β : Type} {P Q : ε → Prop}

def Raises (Q : ε → Prop) (x : Except ε α) : Prop := ∀ e, x = .error e → Q e

theorem raises_pure (a : α) : Raises Q (pure a : Except ε α) := by
  intro e he
  cases he

theorem raises_throw {e : ε} (h : Q e) : Raises Q (throw e : Except ε α) := by
  intro e' he'
  cases he'
  exact h

theorem raises_bind {x : Except ε α} {f : α → Except ε β} (hx : Raises Q x)
    (hf : ∀ a, Raises Q (f a)) : Raises Q (x >>= f) := by
  intro e he
  cases x with
  | error e' =>
      cases he
      exact hx _ rfl
  | ok a => exact hf a e he

theorem raises_tryCatch {x : Except ε α} {handler : ε → Except ε α} (hx : Raises P x)
    (hhandler : ∀ e, P e → Raises Q (handler e)) : Raises Q (tryCatch x handler) := by
  intro e he
  cases x with
  | error e' => exact hhandler e' (hx e' rfl) e he
  | ok a => cases he

theorem raises_cases {x : Except ε α} (h : Raises Q x) :
    (∃ a, x = .ok a) ∨ ∃ e, x = .error e ∧ Q e := by
  cases x with
  | ok a => exact .inl ⟨a, rfl⟩
  | error e => exact .inr ⟨e, rfl, h e rfl⟩

theorem bind_eq_ok_iff {x : Except ε α} {f : α → Except ε β} {b : β} :
    x >>= f = .ok b ↔ ∃ a, x = .ok a ∧ f a = .ok b := by
  cases x with
  | error e => simp [bind, Except.bind]
  | ok a => simp [bind, Except.bind]

theorem bind_eq_of_error {x : Except ε α} {e : ε} (h : x = .error e) (f : α → Except ε β) :
    x >>= f = .error e := by
  rw [h]
  rfl

end Raising
