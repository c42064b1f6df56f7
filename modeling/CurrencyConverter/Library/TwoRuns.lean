import CurrencyConverter.Library.AtomicProgram
import Mathlib.Data.List.Forall2

/-!
# Two runs of one program

`Agree` relates two programs that do the same actions as long as the replies they get are
related, and whose results are related then.  If a machine gives related replies to related
worlds, then two pools under related schedules stay related: what the relations leave out
of the worlds is never told by a response or kept in the shared state.
-/

namespace AtomicProgram

variable {A : Type} {R : A → Type} {α β S Q W B : Type}

namespace Prog

/-- The same actions as long as the replies are related by `RR`, and results related by
`RO`. -/
inductive Agree (RR : (a : A) → R a → R a → Prop) (RO : α → β → Prop) :
    Prog A R α → Prog A R β → Prop
  | ret {x : α} {y : β} (h : RO x y) : Agree RR RO (.ret x) (.ret y)
  | act (a : A) {next : R a → Prog A R α} {next' : R a → Prog A R β}
      (h : ∀ r r', RR a r r' → Agree RR RO (next r) (next' r')) :
      Agree RR RO (.act a next) (.act a next')

variable {RR : (a : A) → R a → R a → Prop}

/-- The rule of composition. -/
theorem Agree.bind {γ δ : Type} {RO : α → β → Prop} {RO' : γ → δ → Prop} {p : Prog A R α}
    {p' : Prog A R β} (h : Agree RR RO p p') {f : α → Prog A R γ} {f' : β → Prog A R δ}
    (hf : ∀ x y, RO x y → Agree RR RO' (f x) (f' y)) : Agree RR RO' (p >>= f) (p' >>= f') := by
  induction h with
  | ret hxy => exact hf _ _ hxy
  | act a _ ih => exact .act a fun r r' hr ↦ ih r r' hr

/-- The outcomes of programs that may throw. -/
inductive SameOutcome {E : Type} (RE : E → E → Prop) : Except E α → Except E α → Prop
  | ok (x : α) : SameOutcome RE (.ok x) (.ok x)
  | error {e e' : E} (h : RE e e') : SameOutcome RE (.error e) (.error e')

theorem Agree.run_bind {E : Type} {RE : E → E → Prop} {p p' : ExceptT E (Prog A R) α}
    (h : Agree RR (SameOutcome RE) p.run p'.run) {f f' : α → ExceptT E (Prog A R) β}
    (hf : ∀ x, Agree RR (SameOutcome RE) (f x).run (f' x).run) :
    Agree RR (SameOutcome RE) (p >>= f).run (p' >>= f').run := by
  rw [ExceptT.run_bind, ExceptT.run_bind]
  apply h.bind
  intro out out' hout
  cases hout with
  | ok x => exact hf x
  | error he => exact .ret (.error he)

end Prog

open Prog

/-! ## Pools -/

section Lists

variable {γ δ : Type} {P : γ → δ → Prop} {l : List γ} {l' : List δ}

theorem forall₂_set (h : List.Forall₂ P l l') {x : γ} {y : δ} (hxy : P x y) (i : ℕ) :
    List.Forall₂ P (l.set i x) (l'.set i y) := by
  induction h generalizing i with
  | nil => exact .nil
  | cons hhead htail ih =>
      cases i with
      | zero => exact .cons hxy htail
      | succ i => exact .cons hhead (ih i)

theorem forall₂_getElem? (h : List.Forall₂ P l l') (i : ℕ) :
    (l[i]? = none ∧ l'[i]? = none) ∨ ∃ x y, l[i]? = some x ∧ l'[i]? = some y ∧ P x y := by
  induction h generalizing i with
  | nil => exact .inl ⟨List.getElem?_nil, List.getElem?_nil⟩
  | cons hhead _ ih =>
      cases i with
      | zero => exact .inr ⟨_, _, List.getElem?_cons_zero, List.getElem?_cons_zero, hhead⟩
      | succ i =>
          simp only [List.getElem?_cons_succ]
          exact ih i

end Lists

section Pools

variable (RR : (a : A) → R a → R a → Prop) (RW : W → W → Prop)

inductive SameChoice : Choice Q W B → Choice Q W B → Prop
  | start (q : Q) : SameChoice (.start q) (.start q)
  | act (i : ℕ) {w w' : W} (h : RW w w') : SameChoice (.act i w) (.act i w')
  | tend (b : B) : SameChoice (.tend b) (.tend b)

inductive SameThread : Q × Option (Prog A R α) → Q × Option (Prog A R α) → Prop
  | running (q : Q) {p p' : Prog A R α} (h : Agree RR Eq p p') :
      SameThread (q, some p) (q, some p')
  | finished (q : Q) : SameThread (q, none) (q, none)

inductive SameEvent : Event A R α Q W B → Event A R α Q W B → Prop
  | started (i : ℕ) (q : Q) : SameEvent (.started i q) (.started i q)
  | acted (i : ℕ) {w w' : W} (hw : RW w w') (a : A) {r r' : R a} (hr : RR a r r') :
      SameEvent (.acted i w a r) (.acted i w' a r')
  | responded (i : ℕ) (out : α) : SameEvent (.responded i out) (.responded i out)
  | tended (b : B) : SameEvent (.tended b) (.tended b)

/-- Equal shared states; the rest differs by what the relations leave out. -/
structure SamePool (pool pool' : Pool A R α S Q W B) : Prop where
  shared : pool.shared = pool'.shared
  threads : List.Forall₂ (SameThread RR) pool.threads pool'.threads
  log : List.Forall₂ (SameEvent RR RW) pool.log pool'.log

variable {RR} {RW} {M : Machine A R α S Q W B}

theorem SamePool.resume {pool pool' : Pool A R α S Q W B} (h : SamePool RR RW pool pool') (i : ℕ)
    {t t' : Q × Option (Prog A R α)} (ht : SameThread RR t t') {e e' : Event A R α Q W B}
    (he : SameEvent RR RW e e') {s s' : S} (hs : s = s') :
    SamePool RR RW ⟨s, pool.threads.set i t, e :: pool.log⟩
      ⟨s', pool'.threads.set i t', e' :: pool'.log⟩ :=
  ⟨hs, forall₂_set h.threads ht i, .cons he h.log⟩

/-- One step keeps two pools related. -/
theorem SamePool.step (hcode : ∀ q, Agree RR Eq (M.code q) (M.code q))
    (hanswer : ∀ w w' s a, RW w w' → RR a (M.answer w s a).1 (M.answer w' s a).1 ∧
      (M.answer w s a).2 = (M.answer w' s a).2)
    {pool pool' : Pool A R α S Q W B} (h : SamePool RR RW pool pool') {c c' : Choice Q W B}
    (hc : SameChoice RW c c') : SamePool RR RW (M.step pool c) (M.step pool' c') := by
  cases hc with
  | start q =>
      refine ⟨h.shared, ?_, ?_⟩
      · exact List.rel_append h.threads (.cons (.running q (hcode q)) .nil)
      · rw [Machine.step, h.threads.length_eq]
        exact .cons (.started _ _) h.log
  | tend b =>
      refine ⟨?_, h.threads, .cons (.tended b) h.log⟩
      simp only [Machine.step, h.shared]
  | @act i w w' hw =>
      simp only [Machine.step]
      rcases forall₂_getElem? h.threads i with ⟨hnone, hnone'⟩ | ⟨t, t', hi, hi', ht⟩
      · rw [hnone, hnone']
        exact h
      · rw [hi, hi']
        cases ht with
        | finished q => exact h
        | running q hp =>
            cases hp with
            | ret hout =>
                cases hout
                exact h.resume i (.finished q) (.responded i _) h.shared
            | act a hnext =>
                obtain ⟨hr, hshared⟩ := hanswer w w' pool.shared a hw
                rw [← h.shared]
                exact h.resume i (.running q (hnext _ _ hr)) (.acted i hw a hr) hshared

/-- Two runs under related schedules. -/
theorem samePool_run (hcode : ∀ q, Agree RR Eq (M.code q) (M.code q))
    (hanswer : ∀ w w' s a, RW w w' → RR a (M.answer w s a).1 (M.answer w' s a).1 ∧
      (M.answer w s a).2 = (M.answer w' s a).2)
    (s₀ : S) {cs cs' : List (Choice Q W B)} (hcs : List.Forall₂ (SameChoice RW) cs cs') :
    SamePool RR RW (M.run s₀ cs) (M.run s₀ cs') := by
  induction hcs with
  | nil => exact ⟨rfl, .nil, .nil⟩
  | cons hc _ ih => exact ih.step hcode hanswer hc

end Pools

end AtomicProgram
