import CurrencyConverter.Library.AtomicProgram

/-!
# Programs whose replies make no difference

`eval` runs a program with one fixed reply for each action.  A program settles on a result
if every run with allowed replies ends with it.  A program that settles on its plain result
may have its actions answered out of a cache, or by whatever else gives allowed replies:
no run of a pool ever shows the difference.
-/

namespace AtomicProgram

variable {A : Type} {R : A → Type} {α β S Q W B : Type}

namespace Prog

def eval (reply : (a : A) → R a) : Prog A R α → α
  | .ret x => x
  | .act a next => eval reply (next (reply a))

/-- Every run with allowed replies ends with `x`. -/
def Settles (allowed : (a : A) → R a → Prop) (x : α) : Prog A R α → Prop
  | .ret y => y = x
  | .act a next => ∀ r, allowed a r → Settles allowed x (next r)

variable {reply : (a : A) → R a} {allowed : (a : A) → R a → Prop}

@[simp] theorem eval_ret (x : α) : eval reply (.ret x : Prog A R α) = x := rfl

@[simp] theorem eval_act (a : A) (next : R a → Prog A R α) :
    eval reply (.act a next) = eval reply (next (reply a)) := rfl

theorem eval_bind (p : Prog A R α) (f : α → Prog A R β) :
    eval reply (p >>= f) = eval reply (f (eval reply p)) := by
  induction p with
  | ret x => rfl
  | act a next ih => exact ih _

theorem eval_run_bind {E : Type} (p : ExceptT E (Prog A R) α) (f : α → ExceptT E (Prog A R) β) :
    eval reply (p >>= f).run = match eval reply p.run with
      | .ok x => eval reply (f x).run
      | .error e => .error e := by
  rw [ExceptT.run_bind, eval_bind]
  cases eval reply p.run with
  | ok x => rfl
  | error e => rfl

/-- The rule of composition. -/
theorem Settles.bind {x : α} {y : β} {p : Prog A R α} (hp : Settles allowed x p)
    {f : α → Prog A R β} (hf : Settles allowed y (f x)) : Settles allowed y (p >>= f) := by
  induction p with
  | ret x' =>
      obtain rfl : x' = x := hp
      exact hf
  | act a next ih => exact fun r hr ↦ ih r (hp r hr)

theorem settles_perform_bind {E : Type} {y : Except E β} (a : A) {f : R a → ExceptT E (Prog A R) β}
    (h : ∀ r, allowed a r → Settles allowed y (f r).run) :
    Settles allowed y (perform (R := R) a >>= f).run := h

/-- The result is the plain one. -/
abbrev Plain (allowed : (a : A) → R a → Prop) (reply : (a : A) → R a) (p : Prog A R α) : Prop :=
  Settles allowed (eval reply p) p

theorem plain_perform {E : Type} {a : A} (h : ∀ r, allowed a r → r = reply a) :
    Plain allowed reply (perform (R := R) (E := E) a).run := by
  intro r hr
  exact congrArg Except.ok (h r hr)

theorem Plain.settles_bind {E : Type} {p : ExceptT E (Prog A R) α} (hp : Plain allowed reply p.run)
    {f : α → ExceptT E (Prog A R) β} {y : Except E β}
    (hok : ∀ x, eval reply p.run = .ok x → Settles allowed y (f x).run)
    (herror : ∀ e, eval reply p.run = .error e → y = .error e) :
    Settles allowed y (p >>= f).run := by
  rw [ExceptT.run_bind]
  apply hp.bind
  cases hx : eval reply p.run with
  | ok x => exact hok x hx
  | error e => exact (herror e hx).symm

theorem Plain.run_bind {E : Type} {p : ExceptT E (Prog A R) α} (hp : Plain allowed reply p.run)
    {f : α → ExceptT E (Prog A R) β}
    (hf : ∀ x, eval reply p.run = .ok x → Plain allowed reply (f x).run) :
    Plain allowed reply (p >>= f).run := by
  rw [Plain, eval_run_bind]
  apply hp.settles_bind
  · intro x hx
    rw [hx]
    exact hf x hx
  · intro e he
    rw [he]

/-- What is left of the program after allowed replies still ends with `x`. -/
theorem Settles.of_path {x : α} {p p' : Prog A R α} (hp : Settles allowed x p)
    {h : List (Done A R)} (hpath : Path p h p') (hallowed : ∀ d ∈ h, allowed d.1 d.2) :
    Settles allowed x p' := by
  induction hpath with
  | start => exact hp
  | next _ r ih =>
      obtain ⟨hr, hearlier⟩ := List.forall_mem_cons.mp hallowed
      exact ih hearlier r hr

end Prog

open Prog

/-- In a pool, a thread whose replies are all allowed responds as if it ran alone with the
fixed ones. -/
theorem Machine.Legal.eq_eval {M : Machine A R α S Q W B} {s₀ : S}
    {log l : List (Event A R α Q W B)} (h : M.Legal s₀ log) {reply : (a : A) → R a}
    {allowed : (a : A) → R a → Prop} {i : ℕ} {q : Q} (hq : requestOf i l = some q)
    (hcode : Plain allowed reply (M.code q)) (hallowed : ∀ d ∈ project i l, allowed d.1 d.2)
    {out : α} (hs : .responded i out :: l <:+ log) : out = eval reply (M.code q) := by
  obtain ⟨⟨q', hq', hpath⟩, -⟩ := h.of_suffix hs
  obtain rfl : q = q' := Option.some.inj (hq.symm.trans hq')
  exact hcode.of_path hpath hallowed

end AtomicProgram
