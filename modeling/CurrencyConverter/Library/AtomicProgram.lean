import Mathlib.Control.Monad.Basic
import Mathlib.Data.List.Basic

/-!
# Programs of atomic actions and their interleavings

A `Prog` is a tree of atomic actions, each continued by its reply.  `Holds` is
the rule of pre- and postconditions for one program: `G` constrains every
action by the actions the program did before it, `Q` the result.  A `Pool` runs
many programs on one shared state, one action at a time, and keeps a log.

The log is legal: the actions of one thread are a path of its program, and
every reply is what the shared state gave at that point.  Facts about single
programs thereby become facts about every interleaving.

All histories list the latest item first.
-/

namespace AtomicProgram

/-- A program whose actions are `A`, answered by `R`. -/
inductive Prog (A : Type) (R : A → Type) (α : Type)
  | ret (a : α)
  | act (a : A) (next : R a → Prog A R α)

/-- An item of a history, with the history before it. -/
theorem exists_suffix_of_mem {ι : Type} {x : ι} {l : List ι} (h : x ∈ l) :
    ∃ before, x :: before <:+ l := by
  obtain ⟨later, before, hsplit⟩ := List.append_of_mem h
  exact ⟨before, later, hsplit.symm⟩

abbrev Done (A : Type) (R : A → Type) := (a : A) × R a

namespace Prog

variable {A : Type} {R : A → Type} {α β : Type}

def bind : Prog A R α → (α → Prog A R β) → Prog A R β
  | .ret a, f => f a
  | .act a next, f => .act a fun r ↦ (next r).bind f

/-- The program of one action, among programs that may throw. -/
def perform {E : Type} (a : A) : ExceptT E (Prog A R) (R a) :=
  ExceptT.mk (.act a fun r ↦ .ret (.ok r))

instance : Monad (Prog A R) where
  pure := .ret
  bind := bind

@[simp] theorem pure_eq (a : α) : (pure a : Prog A R α) = .ret a := rfl

@[simp] theorem ret_bind (a : α) (f : α → Prog A R β) : (.ret a : Prog A R α) >>= f = f a := rfl

@[simp] theorem act_bind (a : A) (next : R a → Prog A R α) (f : α → Prog A R β) :
    (.act a next : Prog A R α) >>= f = .act a fun r ↦ next r >>= f := rfl

/-! ## Alone -/

/-- A program that runs alone from the shared state `s`; its `i`-th action meets
the world as `w i` describes it. -/
def run {S W : Type} (answer : W → S → (a : A) → R a × S) (w : ℕ → W) :
    Prog A R α → ℕ × S → α × ℕ × S
  | .ret a, st => (a, st)
  | .act a next, (i, s) => run answer w (next (answer (w i) s a).1) (i + 1, (answer (w i) s a).2)

theorem run_bind {S W : Type} (answer : W → S → (a : A) → R a × S) (w : ℕ → W)
    (p : Prog A R α) (f : α → Prog A R β) (st : ℕ × S) :
    (p >>= f).run answer w st = (f (p.run answer w st).1).run answer w (p.run answer w st).2 := by
  induction p generalizing st with
  | ret a => rfl
  | act a next ih => exact ih _ _

theorem run_except_bind {S W E : Type} (answer : W → S → (a : A) → R a × S) (w : ℕ → W)
    (p : ExceptT E (Prog A R) α) (f : α → ExceptT E (Prog A R) β) (st : ℕ × S) :
    (p >>= f).run.run answer w st = match p.run.run answer w st with
      | (.ok a, st') => (f a).run.run answer w st'
      | (.error e, st') => (.error e, st') := by
  rw [ExceptT.run_bind, run_bind]
  rcases p.run.run answer w st with ⟨_ | _, _⟩
  · rfl
  · rfl

/-! ## Pre- and postconditions -/

/-- Every action of the program is permitted by `G` after the actions before
it, and its result meets `Q`. -/
def Holds (G : List (Done A R) → A → Prop) (Q : List (Done A R) → α → Prop) :
    List (Done A R) → Prog A R α → Prop
  | h, .ret a => Q h a
  | h, .act a next => G h a ∧ ∀ r, Holds G Q (⟨a, r⟩ :: h) (next r)

variable {G : List (Done A R) → A → Prop}

@[simp] theorem holds_ret {Q : List (Done A R) → α → Prop} (h : List (Done A R)) (a : α) :
    Holds G Q h (.ret a) ↔ Q h a := Iff.rfl

@[simp] theorem holds_act {Q : List (Done A R) → α → Prop} (h : List (Done A R)) (a : A)
    (next : R a → Prog A R α) :
    Holds G Q h (.act a next) ↔ G h a ∧ ∀ r, Holds G Q (⟨a, r⟩ :: h) (next r) := Iff.rfl

/-- The rule of composition. -/
@[simp] theorem holds_bind {Q : List (Done A R) → β → Prop} (h : List (Done A R))
    (p : Prog A R α) (f : α → Prog A R β) :
    Holds G Q h (p >>= f) ↔ Holds G (fun h' a ↦ Holds G Q h' (f a)) h p := by
  induction p generalizing h with
  | ret a => rfl
  | act a next ih =>
      rw [act_bind, holds_act, holds_act]
      exact and_congr_right fun _ ↦ forall_congr' fun r ↦ ih r _

theorem Holds.mono {Q Q' : List (Done A R) → α → Prop} {h : List (Done A R)} {p : Prog A R α}
    (hp : Holds G Q h p) (hQ : ∀ h' a, Q h' a → Q' h' a) : Holds G Q' h p := by
  induction p generalizing h with
  | ret a => exact hQ h a hp
  | act a next ih => exact ⟨hp.1, fun r ↦ ih r (hp.2 r)⟩

theorem Holds.imp {G' : List (Done A R) → A → Prop} {Q : List (Done A R) → α → Prop}
    {h : List (Done A R)} {p : Prog A R α} (hp : Holds G Q h p) (hG : ∀ h' a, G h' a → G' h' a) :
    Holds G' Q h p := by
  induction p generalizing h with
  | ret a => exact hp
  | act a next ih => exact ⟨hG h a hp.1, fun r ↦ ih r (hp.2 r)⟩

theorem holds_run_bind {E : Type} {Q : List (Done A R) → Except E β → Prop}
    (h : List (Done A R)) (p : ExceptT E (Prog A R) α) (f : α → ExceptT E (Prog A R) β) :
    Holds G Q h (p >>= f).run ↔
      Holds G (fun h' out ↦ match out with
        | .ok a => Holds G Q h' (f a).run
        | .error e => Q h' (.error e)) h p.run := by
  rw [ExceptT.run_bind, holds_bind]
  constructor
  · intro hp
    apply hp.mono
    intro h' out hout
    cases out with
    | ok a => exact hout
    | error e => exact hout
  · intro hp
    apply hp.mono
    intro h' out hout
    cases out with
    | ok a => exact hout
    | error e => exact hout

/-! ## Paths -/

/-- `Path p h p'`: after the actions `h`, the program `p` has come to `p'`. -/
inductive Path (p : Prog A R α) : List (Done A R) → Prog A R α → Prop
  | start : Path p [] p
  | next {h : List (Done A R)} {a : A} {k : R a → Prog A R α} (hp : Path p h (.act a k))
      (r : R a) : Path p (⟨a, r⟩ :: h) (k r)

theorem Holds.of_path {Q : List (Done A R) → α → Prop} {p p' : Prog A R α}
    {h : List (Done A R)} (hp : Holds G Q [] p) (hpath : Path p h p') : Holds G Q h p' := by
  induction hpath with
  | start => exact hp
  | next _ r ih => exact ih.2 r

theorem Path.act_of_cons {p p' : Prog A R α} {d : Done A R} {h : List (Done A R)}
    (hpath : Path p (d :: h) p') : ∃ k, Path p h (.act d.1 k) := by
  cases hpath with
  | next hp r => exact ⟨_, hp⟩

theorem Path.of_suffix {p p' : Prog A R α} {h h' : List (Done A R)} (hpath : Path p h p')
    (hs : h' <:+ h) : ∃ p'', Path p h' p'' := by
  obtain ⟨later, rfl⟩ := hs
  induction later generalizing p' with
  | nil => exact ⟨p', hpath⟩
  | cons d later ih =>
      obtain ⟨k, hact⟩ := hpath.act_of_cons
      exact ih hact

/-- Every action on a path was permitted when it was done. -/
theorem Holds.permitted {Q : List (Done A R) → α → Prop} {p p' : Prog A R α}
    {h : List (Done A R)} (hp : Holds G Q [] p) (hpath : Path p h p') {d : Done A R} (hd : d ∈ h) :
    ∃ h', d :: h' <:+ h ∧ G h' d.1 := by
  induction hpath with
  | start => cases hd
  | next hpath r ih =>
      rcases List.mem_cons.mp hd with rfl | hd
      · exact ⟨_, List.suffix_refl _, (hp.of_path hpath).1⟩
      · obtain ⟨h', hs, hG⟩ := ih hd
        exact ⟨h', hs.trans (List.suffix_cons _ _), hG⟩

theorem Path.unique {p p₁ p₂ : Prog A R α} {h : List (Done A R)} (h₁ : Path p h p₁)
    (h₂ : Path p h p₂) : p₁ = p₂ := by
  induction h₁ generalizing p₂ with
  | start =>
      cases h₂
      rfl
  | next _ r ih =>
      cases h₂ with
      | next h₂ _ =>
          cases ih h₂
          rfl

theorem Path.not_act_of_ret {p p' : Prog A R α} {h h' : List (Done A R)} {out : α} {a : A}
    {k : R a → Prog A R α} (hret : Path p h (.ret out)) (hact : Path p h' p')
    (hs : h <:+ h') (hp' : p' = .act a k) : False := by
  subst hp'
  obtain ⟨later, rfl⟩ := hs
  induction later generalizing a with
  | nil => cases hret.unique hact
  | cons d later ih =>
      obtain ⟨k', hk'⟩ := hact.act_of_cons
      exact ih hk'

theorem Path.eq_of_ret {p p' : Prog A R α} {h h' : List (Done A R)} {out : α}
    (hret : Path p h (.ret out)) (hpath : Path p h' p') (hs : h <:+ h') : h = h' := by
  obtain ⟨later, rfl⟩ := hs
  cases later with
  | nil => rfl
  | cons d later =>
      obtain ⟨k, hk⟩ := hpath.act_of_cons
      exact (hret.not_act_of_ret hk ⟨later, rfl⟩ rfl).elim

/-! ## What a program does alone -/

section Trace

variable {S W : Type} (answer : W → S → (a : A) → R a × S) (w : ℕ → W)

/-- The actions of a program that runs alone, after the actions `h`. -/
def trace : Prog A R α → ℕ × S → List (Done A R) → List (Done A R)
  | .ret _, _, h => h
  | .act a next, (i, s), h =>
      trace (next (answer (w i) s a).1) (i + 1, (answer (w i) s a).2)
        (⟨a, (answer (w i) s a).1⟩ :: h)

def stateAfter (s₀ : S) : List (Done A R) → S
  | [] => s₀
  | d :: h => (answer (w h.length) (stateAfter s₀ h) d.1).2

/-- Every reply is the one of the shared state at that point. -/
def Answered (s₀ : S) (h : List (Done A R)) : Prop :=
  ∀ d h', d :: h' <:+ h → d.2 = (answer (w h'.length) (stateAfter answer w s₀ h') d.1).1

/-- The same answers from a state that keeps the actions. -/
def recording (w : W) (s : S × List (Done A R)) (a : A) : R a × S × List (Done A R) :=
  ((answer w s.1 a).1, (answer w s.1 a).2, ⟨a, (answer w s.1 a).1⟩ :: s.2)

theorem run_recording (p : Prog A R α) (i : ℕ) (s : S) (h : List (Done A R)) :
    p.run (recording answer) w (i, s, h) =
      ((p.run answer w (i, s)).1, (p.run answer w (i, s)).2.1, (p.run answer w (i, s)).2.2,
        p.trace answer w (i, s) h) := by
  induction p generalizing i s h with
  | ret a => rfl
  | act a next ih => exact ih _ _ _ _

variable {answer w} {s₀ : S} {h : List (Done A R)}

theorem Answered.of_suffix {h' : List (Done A R)} (hans : Answered answer w s₀ h)
    (hs : h' <:+ h) : Answered answer w s₀ h' :=
  fun d h'' hs' ↦ hans d h'' (hs'.trans hs)

theorem Path.trace {p p' : Prog A R α} (hpath : Path p h p') (st : ℕ × S) :
    Path p (p'.trace answer w st h) (.ret (p'.run answer w st).1) := by
  induction p' generalizing h st with
  | ret a => exact hpath
  | act a next ih => exact ih _ (hpath.next _) _

theorem Answered.trace (hans : Answered answer w s₀ h) (p : Prog A R α) :
    Answered answer w s₀ (p.trace answer w (h.length, stateAfter answer w s₀ h) h) ∧
      (p.run answer w (h.length, stateAfter answer w s₀ h)).2 =
        ((p.trace answer w (h.length, stateAfter answer w s₀ h) h).length,
          stateAfter answer w s₀ (p.trace answer w (h.length, stateAfter answer w s₀ h) h)) := by
  induction p generalizing h with
  | ret a => exact ⟨hans, rfl⟩
  | act a next ih =>
      have hnext : Answered answer w s₀
          (⟨a, (answer (w h.length) (stateAfter answer w s₀ h) a).1⟩ :: h) := by
        intro d h' hs
        rcases List.suffix_cons_iff.mp hs with heq | hs
        · cases heq
          rfl
        · exact hans d h' hs
      exact ih _ hnext

theorem answered_nil : Answered answer w s₀ ([] : List (Done A R)) := by
  intro d h' hs
  cases List.suffix_nil.mp hs

end Trace

end Prog

open Prog

/-! ## Pools -/

/-- Requests `Q` answered with `α` by programs on a shared state `S`.  `W` is
what the world outside brings to one action, `B` a background step. -/
structure Machine (A : Type) (R : A → Type) (α S Q W B : Type) where
  code : Q → Prog A R α
  answer : W → S → (a : A) → R a × S
  tend : B → S → S

/-- What happens in a pool; `i` numbers the threads. -/
inductive Event (A : Type) (R : A → Type) (α Q W B : Type)
  | started (i : ℕ) (q : Q)
  | acted (i : ℕ) (w : W) (a : A) (r : R a)
  | responded (i : ℕ) (out : α)
  | tended (b : B)

inductive Choice (Q W B : Type)
  | start (q : Q)
  | act (i : ℕ) (w : W)
  | tend (b : B)

/-- A thread is its request and the program left, `none` once it responded. -/
structure Pool (A : Type) (R : A → Type) (α S Q W B : Type) where
  shared : S
  threads : List (Q × Option (Prog A R α))
  log : List (Event A R α Q W B)

variable {A : Type} {R : A → Type} {α S Q W B : Type}

namespace Machine

variable (M : Machine A R α S Q W B)

def step (pool : Pool A R α S Q W B) : Choice Q W B → Pool A R α S Q W B
  | .start q =>
      { pool with
        threads := pool.threads ++ [(q, some (M.code q))]
        log := .started pool.threads.length q :: pool.log }
  | .act i w =>
      match pool.threads[i]? with
      | some (q, some (.ret out)) =>
          { pool with
            threads := pool.threads.set i (q, none)
            log := .responded i out :: pool.log }
      | some (q, some (.act a next)) =>
          { shared := (M.answer w pool.shared a).2
            threads := pool.threads.set i (q, some (next (M.answer w pool.shared a).1))
            log := .acted i w a (M.answer w pool.shared a).1 :: pool.log }
      | _ => pool
  | .tend b => { pool with shared := M.tend b pool.shared, log := .tended b :: pool.log }

/-- The pool after the choices, the latest first. -/
def run (s₀ : S) : List (Choice Q W B) → Pool A R α S Q W B
  | [] => ⟨s₀, [], []⟩
  | c :: earlier => M.step (run s₀ earlier) c

def sharedAfter (s₀ : S) : List (Event A R α Q W B) → S
  | [] => s₀
  | .acted _ w a _ :: l => (M.answer w (sharedAfter s₀ l) a).2
  | .tended b :: l => M.tend b (sharedAfter s₀ l)
  | _ :: l => sharedAfter s₀ l

end Machine

def requestOf (i : ℕ) : List (Event A R α Q W B) → Option Q
  | [] => none
  | .started j q :: l => if j = i then some q else requestOf i l
  | _ :: l => requestOf i l

def project (i : ℕ) : List (Event A R α Q W B) → List (Done A R)
  | [] => []
  | .acted j _ a r :: l => if j = i then ⟨a, r⟩ :: project i l else project i l
  | _ :: l => project i l

namespace Machine

variable (M : Machine A R α S Q W B)

/-- Every thread follows its program from its start on, and every reply is the
one of the shared state at that point. -/
def Legal (s₀ : S) : List (Event A R α Q W B) → Prop
  | [] => True
  | .started i _ :: l => requestOf i l = none ∧ Legal s₀ l
  | .acted i w a r :: l =>
      (∃ q k, requestOf i l = some q ∧ Path (M.code q) (project i l) (.act a k)) ∧
        r = (M.answer w (M.sharedAfter s₀ l) a).1 ∧ Legal s₀ l
  | .responded i out :: l =>
      (∃ q, requestOf i l = some q ∧ Path (M.code q) (project i l) (.ret out)) ∧ Legal s₀ l
  | .tended _ :: l => Legal s₀ l

variable {M} {s₀ : S} {l log : List (Event A R α Q W B)}

theorem Legal.tail {e : Event A R α Q W B} (h : M.Legal s₀ (e :: l)) : M.Legal s₀ l := by
  cases e with
  | started i q => exact h.2
  | acted i w a r => exact h.2.2
  | responded i out => exact h.2
  | tended b => exact h

theorem Legal.of_suffix (h : M.Legal s₀ log) (hs : l <:+ log) : M.Legal s₀ l := by
  obtain ⟨later, rfl⟩ := hs
  induction later with
  | nil => exact h
  | cons e later ih => exact ih h.tail

theorem Legal.project_eq_nil (h : M.Legal s₀ log) {i : ℕ} (hnone : requestOf i log = none) :
    project i log = [] := by
  induction log with
  | nil => rfl
  | cons e l ih =>
      cases e with
      | started j q =>
          by_cases hj : j = i
          · simp [requestOf, hj] at hnone
          · exact ih h.tail (by simpa [requestOf, hj] using hnone)
      | acted j w a r =>
          by_cases hj : j = i
          · subst hj
            obtain ⟨⟨q, k, hq, _⟩, _⟩ := h
            have hsome : requestOf j l = none := hnone
            rw [hq] at hsome
            cases hsome
          · rw [project, if_neg hj]
            exact ih h.tail hnone
      | responded j out => exact ih h.tail hnone
      | tended b => exact ih h.tail hnone

theorem Legal.requestOf_of_suffix (h : M.Legal s₀ log) (hs : l <:+ log) {i : ℕ} {q : Q}
    (hq : requestOf i l = some q) : requestOf i log = some q := by
  obtain ⟨later, rfl⟩ := hs
  induction later with
  | nil => exact hq
  | cons e later ih =>
      have hlater := ih h.tail
      cases e with
      | started j q' =>
          have hj : j ≠ i := by
            rintro rfl
            have hnone : requestOf j (later ++ l) = none := h.1
            rw [hlater] at hnone
            cases hnone
          simpa [requestOf, hj] using hlater
      | acted j w a r => exact hlater
      | responded j out => exact hlater
      | tended b => exact hlater

theorem Legal.started_before (h : M.Legal s₀ log) {i : ℕ} {q q' : Q}
    {before : List (Event A R α Q W B)} (hstart : .started i q :: before <:+ log)
    (hs : l <:+ log) (hq : requestOf i l = some q') : .started i q :: before <:+ l := by
  rcases List.suffix_or_suffix_of_suffix hstart hs with hle | hle
  · exact hle
  · rcases List.suffix_cons_iff.mp hle with heq | hle
    · subst heq
      exact List.suffix_refl _
    · have hbefore := h.of_suffix hstart
      have hnone : requestOf i before = none := hbefore.1
      rw [hbefore.tail.requestOf_of_suffix hle hq] at hnone
      cases hnone

/-! ## The pool keeps a legal log -/

/-- The log is legal and tells the shared state and where every thread is. -/
structure Consistent (M : Machine A R α S Q W B) (s₀ : S) (pool : Pool A R α S Q W B) :
    Prop where
  shared : pool.shared = M.sharedAfter s₀ pool.log
  legal : M.Legal s₀ pool.log
  fresh : ∀ i, pool.threads.length ≤ i → requestOf i pool.log = none
  running : ∀ i q p, pool.threads[i]? = some (q, some p) →
    requestOf i pool.log = some q ∧ Path (M.code q) (project i pool.log) p
  finished : ∀ i q, pool.threads[i]? = some (q, none) →
    requestOf i pool.log = some q ∧ ∃ out, .responded i out ∈ pool.log

variable {pool : Pool A R α S Q W B}

theorem Consistent.start (h : M.Consistent s₀ pool) (q : Q) :
    M.Consistent s₀ (M.step pool (.start q)) := by
  have hnew : requestOf pool.threads.length pool.log = none := h.fresh _ (Nat.le_refl _)
  have hold : ∀ i o, (pool.threads ++ [(q, some (M.code q))])[i]? = some o →
      pool.threads[i]? = some o ∧ pool.threads.length ≠ i ∨
        pool.threads.length = i ∧ (q, some (M.code q)) = o := by
    intro i o ho
    rcases Nat.lt_trichotomy i pool.threads.length with hi | rfl | hi
    · left
      rw [List.getElem?_append_left hi] at ho
      exact ⟨ho, by omega⟩
    · right
      exact ⟨rfl, by simpa using ho⟩
    · have hlen : (pool.threads ++ [(q, some (M.code q))]).length ≤ i := by
        rw [List.length_append, List.length_singleton]
        omega
      rw [List.getElem?_eq_none hlen] at ho
      cases ho
  constructor
  · exact h.shared
  · exact ⟨hnew, h.legal⟩
  · intro i hi
    have hlen : pool.threads.length + 1 ≤ i := by simpa [step] using hi
    have hne : pool.threads.length ≠ i := by omega
    simpa [step, requestOf, hne] using h.fresh i (by omega)
  · intro i q' p hp
    rcases hold i _ hp with ⟨hp, hne⟩ | ⟨rfl, heq⟩
    · simpa [step, requestOf, project, hne] using h.running i q' p hp
    · cases heq
      have hnil : project pool.threads.length pool.log = [] := h.legal.project_eq_nil hnew
      simpa [step, requestOf, project, hnil] using Path.start
  · intro i q' hp
    rcases hold i _ hp with ⟨hp, hne⟩ | ⟨rfl, heq⟩
    · obtain ⟨hq, out, hout⟩ := h.finished i q' hp
      exact ⟨by simpa [step, requestOf, hne] using hq, out, List.mem_cons_of_mem _ hout⟩
    · cases heq

theorem Consistent.respond (h : M.Consistent s₀ pool) {i : ℕ} {q : Q} {out : α}
    (hi : pool.threads[i]? = some (q, some (.ret out))) :
    M.Consistent s₀ ⟨pool.shared, pool.threads.set i (q, none), .responded i out :: pool.log⟩ := by
  obtain ⟨hq, hpath⟩ := h.running i q _ hi
  constructor
  · exact h.shared
  · exact ⟨⟨q, hq, hpath⟩, h.legal⟩
  · intro j hj
    exact h.fresh j (by simpa using hj)
  · intro j q' p hp
    by_cases hji : i = j
    · simp [List.getElem?_set, hji] at hp
    · rw [List.getElem?_set_ne hji] at hp
      exact h.running j q' p hp
  · intro j q' hp
    by_cases hji : i = j
    · subst hji
      have hqq : q = q' := by
        rw [List.getElem?_set_self (List.getElem?_eq_some_iff.mp hi).1] at hp
        simpa using hp
      exact ⟨hqq ▸ hq, out, List.mem_cons_self⟩
    · rw [List.getElem?_set_ne hji] at hp
      obtain ⟨hq', out', hout⟩ := h.finished j q' hp
      exact ⟨hq', out', List.mem_cons_of_mem _ hout⟩

theorem Consistent.act (h : M.Consistent s₀ pool) {i : ℕ} {q : Q} {a : A}
    {next : R a → Prog A R α} (hi : pool.threads[i]? = some (q, some (.act a next))) (w : W) :
    M.Consistent s₀ ⟨(M.answer w pool.shared a).2,
      pool.threads.set i (q, some (next (M.answer w pool.shared a).1)),
      .acted i w a (M.answer w pool.shared a).1 :: pool.log⟩ := by
  obtain ⟨hq, hpath⟩ := h.running i q _ hi
  constructor
  · simp only [sharedAfter, h.shared]
  · refine ⟨⟨q, next, hq, hpath⟩, ?_, h.legal⟩
    rw [h.shared]
  · intro j hj
    exact h.fresh j (by simpa using hj)
  · intro j q' p hp
    by_cases hji : i = j
    · subst hji
      rw [List.getElem?_set_self (List.getElem?_eq_some_iff.mp hi).1] at hp
      cases hp
      refine ⟨hq, ?_⟩
      rw [project, if_pos rfl]
      exact hpath.next _
    · rw [List.getElem?_set_ne hji] at hp
      change requestOf j pool.log = some q' ∧ Path (M.code q') (if i = j then _ else _) p
      rw [if_neg hji]
      exact h.running j q' p hp
  · intro j q' hp
    have hji : i ≠ j := by
      rintro rfl
      rw [List.getElem?_set_self (List.getElem?_eq_some_iff.mp hi).1] at hp
      cases hp
    rw [List.getElem?_set_ne hji] at hp
    obtain ⟨hq', out, hout⟩ := h.finished j q' hp
    exact ⟨hq', out, List.mem_cons_of_mem _ hout⟩

theorem Consistent.tend (h : M.Consistent s₀ pool) (b : B) :
    M.Consistent s₀ (M.step pool (.tend b)) := by
  constructor
  · simp only [step, sharedAfter, h.shared]
  · exact h.legal
  · exact h.fresh
  · exact h.running
  · intro i q hp
    obtain ⟨hq, out, hout⟩ := h.finished i q hp
    exact ⟨hq, out, List.mem_cons_of_mem _ hout⟩

theorem Consistent.step (h : M.Consistent s₀ pool) (c : Choice Q W B) :
    M.Consistent s₀ (M.step pool c) := by
  cases c with
  | start q => exact h.start q
  | act i w =>
      simp only [Machine.step]
      split
      · exact h.respond ‹_›
      · exact h.act ‹_› w
      · exact h
  | tend b => exact h.tend b

theorem consistent_run (M : Machine A R α S Q W B) (s₀ : S) (cs : List (Choice Q W B)) :
    M.Consistent s₀ (M.run s₀ cs) := by
  induction cs with
  | nil => exact ⟨rfl, trivial, fun _ _ ↦ rfl, by simp [Machine.run], by simp [Machine.run]⟩
  | cons c earlier ih => exact ih.step c

theorem legal_run (M : Machine A R α S Q W B) (s₀ : S) (cs : List (Choice Q W B)) :
    M.Legal s₀ (M.run s₀ cs).log := (consistent_run M s₀ cs).legal

end Machine

/-! ## One thread of a log -/

variable {l log : List (Event A R α Q W B)} {i : ℕ}

theorem mem_project {a : A} {r : R a} : ⟨a, r⟩ ∈ project i l ↔ ∃ w, .acted i w a r ∈ l := by
  induction l with
  | nil => simp [project]
  | cons e l ih =>
      cases e with
      | started j q => simpa [project] using ih
      | acted j w b r' =>
          by_cases hj : j = i
          · subst hj
            constructor
            · intro h
              rw [project, if_pos rfl] at h
              rcases List.mem_cons.mp h with heq | h
              · cases heq
                exact ⟨w, List.mem_cons_self⟩
              · obtain ⟨w', hw⟩ := ih.mp h
                exact ⟨w', List.mem_cons_of_mem _ hw⟩
            · rintro ⟨w', hw⟩
              rw [project, if_pos rfl]
              rcases List.mem_cons.mp hw with heq | hw
              · cases heq
                exact List.mem_cons_self
              · exact List.mem_cons_of_mem _ (ih.mpr ⟨w', hw⟩)
          · rw [project, if_neg hj, ih]
            refine exists_congr fun w' ↦ ⟨List.mem_cons_of_mem _, fun hw ↦ ?_⟩
            rcases List.mem_cons.mp hw with heq | hw
            · cases heq
              exact absurd rfl hj
            · exact hw
      | responded j out => simpa [project] using ih
      | tended b => simpa [project] using ih

theorem exists_acted_of_project {a : A} {r : R a} {h : List (Done A R)}
    (hp : project i l = ⟨a, r⟩ :: h) :
    ∃ w before, .acted i w a r :: before <:+ l ∧ project i before = h := by
  induction l with
  | nil => cases hp
  | cons e l ih =>
      have hlater : project i l = ⟨a, r⟩ :: h →
          ∃ w before, .acted i w a r :: before <:+ e :: l ∧ project i before = h := by
        intro hp
        obtain ⟨w, before, hb, hp⟩ := ih hp
        exact ⟨w, before, List.suffix_cons_iff.mpr (Or.inr hb), hp⟩
      cases e with
      | started j q => exact hlater hp
      | acted j w a' r' =>
          by_cases hj : j = i
          · subst hj
            rw [project, if_pos rfl] at hp
            cases hp
            exact ⟨w, l, List.suffix_refl _, rfl⟩
          · rw [project, if_neg hj] at hp
            exact hlater hp
      | responded j out => exact hlater hp
      | tended b => exact hlater hp

theorem project_suffix (hs : l <:+ log) : project i l <:+ project i log := by
  obtain ⟨later, rfl⟩ := hs
  induction later with
  | nil => exact List.suffix_refl _
  | cons e later ih =>
      cases e with
      | acted j w a r =>
          rw [List.cons_append, project]
          split
          · exact ih.trans (List.suffix_cons _ _)
          · exact ih
      | started j q => exact ih
      | responded j out => exact ih
      | tended b => exact ih

/-! ## From programs to pools -/

namespace Machine

variable {M : Machine A R α S Q W B} {s₀ : S} {G : Q → List (Done A R) → A → Prop}
  {Post : Q → List (Done A R) → α → Prop}

/-- Every action in a legal log is permitted by the rules of its request. -/
theorem Legal.permitted (h : M.Legal s₀ log) (hcode : ∀ q, (M.code q).Holds (G q) (Post q) [])
    {w : W} {a : A} {r : R a} (hs : .acted i w a r :: l <:+ log) :
    ∃ q, requestOf i l = some q ∧ G q (project i l) a := by
  obtain ⟨⟨q, k, hq, hpath⟩, _⟩ := h.of_suffix hs
  exact ⟨q, hq, ((hcode q).of_path hpath).1⟩

/-- The actions of a thread are a path of its program. -/
theorem Legal.path (h : M.Legal s₀ log) {q : Q} (hq : requestOf i log = some q) :
    ∃ p, Path (M.code q) (project i log) p := by
  induction log with
  | nil => cases hq
  | cons e l ih =>
      cases e with
      | started j q' =>
          by_cases hj : j = i
          · subst hj
            have hnil : project j l = [] := h.tail.project_eq_nil h.1
            exact ⟨_, by simpa [project, hnil] using Path.start⟩
          · rw [requestOf, if_neg hj] at hq
            exact ih h.tail hq
      | acted j w a r =>
          by_cases hj : j = i
          · subst hj
            obtain ⟨⟨q', k, hq', hpath⟩, -⟩ := h
            obtain rfl : q = q' := Option.some.inj (hq.symm.trans hq')
            rw [project, if_pos rfl]
            exact ⟨_, hpath.next r⟩
          · rw [project, if_neg hj]
            exact ih h.tail hq
      | responded j out => exact ih h.tail hq
      | tended b => exact ih h.tail hq

theorem Legal.answered (h : M.Legal s₀ log) {w : W} {a : A} {r : R a}
    (hs : .acted i w a r :: l <:+ log) : r = (M.answer w (M.sharedAfter s₀ l) a).1 :=
  (h.of_suffix hs).2.1

/-- Every response in a legal log meets the postcondition of its request. -/
theorem Legal.result (h : M.Legal s₀ log) (hcode : ∀ q, (M.code q).Holds (G q) (Post q) [])
    {out : α} (hs : .responded i out :: l <:+ log) :
    ∃ q, requestOf i l = some q ∧ Post q (project i l) out := by
  obtain ⟨⟨q, hq, hpath⟩, _⟩ := h.of_suffix hs
  exact ⟨q, hq, (hcode q).of_path hpath⟩

theorem Legal.project_eq_of_stuck (h : M.Legal s₀ log)
    (hcode : ∀ q, (M.code q).Holds (G q) (Post q) []) {q : Q} {d : List (Done A R)}
    (hstuck : ∀ a, ¬ G q d a) (hs : l <:+ log) (hq : requestOf i l = some q)
    (hp : project i l = d) : project i log = d := by
  obtain ⟨later, rfl⟩ := hs
  induction later with
  | nil => exact hp
  | cons e later ih =>
      have hlater := ih h.tail
      cases e with
      | acted j w a r =>
          by_cases hj : j = i
          · subst hj
            obtain ⟨q', hq', hG⟩ := h.permitted hcode (List.suffix_refl _)
            have hq'' := h.tail.requestOf_of_suffix ⟨later, rfl⟩ hq
            obtain rfl : q = q' := Option.some.inj (hq''.symm.trans hq')
            have hG' : G q (project j (later ++ l)) a := hG
            rw [hlater] at hG'
            exact absurd hG' (hstuck a)
          · rw [List.cons_append, project, if_neg hj]
            exact hlater
      | started j q' => exact hlater
      | responded j out => exact hlater
      | tended b => exact hlater

theorem log_suffix_step (M : Machine A R α S Q W B) (pool : Pool A R α S Q W B)
    (c : Choice Q W B) : pool.log <:+ (M.step pool c).log := by
  cases c with
  | start q => exact List.suffix_cons _ _
  | tend b => exact List.suffix_cons _ _
  | act i w =>
      simp only [Machine.step]
      split
      · exact List.suffix_cons _ _
      · exact List.suffix_cons _ _
      · exact List.suffix_refl _

theorem log_suffix_run (M : Machine A R α S Q W B) (s₀ : S) (later earlier : List (Choice Q W B)) :
    (M.run s₀ earlier).log <:+ (M.run s₀ (later ++ earlier)).log := by
  induction later with
  | nil => exact List.suffix_refl _
  | cons c later ih => exact ih.trans (log_suffix_step M _ c)

theorem act_of_acted (M : Machine A R α S Q W B) (s₀ : S) {cs : List (Choice Q W B)} {w : W} {a : A}
    {r : R a} (h : .acted i w a r ∈ (M.run s₀ cs).log) : .act i w ∈ cs := by
  induction cs with
  | nil => simp [Machine.run] at h
  | cons c earlier ih =>
      have hold : .acted i w a r ∈ (M.run s₀ earlier).log → .act i w ∈ c :: earlier :=
        fun h ↦ List.mem_cons_of_mem c (ih h)
      cases c with
      | start q => exact hold (by simpa [Machine.run, Machine.step] using h)
      | tend b => exact hold (by simpa [Machine.run, Machine.step] using h)
      | act j w' =>
          simp only [Machine.run, Machine.step] at h
          split at h
          · exact hold (by simpa using h)
          · rcases List.mem_cons.mp h with heq | h
            · cases heq
              exact List.mem_cons_self
            · exact hold h
          · exact hold h

/-- A thread whose request has started is running or has responded. -/
theorem running_or_responded (M : Machine A R α S Q W B) (s₀ : S) (cs : List (Choice Q W B))
    {q : Q} (hq : requestOf i (M.run s₀ cs).log = some q) :
    (∃ p, (M.run s₀ cs).threads[i]? = some (q, some p) ∧
      Path (M.code q) (project i (M.run s₀ cs).log) p) ∨
    ∃ out, .responded i out ∈ (M.run s₀ cs).log := by
  have hcons := consistent_run M s₀ cs
  cases hi : (M.run s₀ cs).threads[i]? with
  | none =>
      have hnone := hcons.fresh i (List.getElem?_eq_none_iff.mp hi)
      rw [hq] at hnone
      cases hnone
  | some thread =>
      obtain ⟨q', _ | p⟩ := thread
      · exact Or.inr (hcons.finished i q' hi).2
      · obtain ⟨hq', hpath⟩ := hcons.running i q' p hi
        obtain rfl : q' = q := Option.some.inj (hq'.symm.trans hq)
        exact Or.inl ⟨p, rfl, hpath⟩

/-- A thread that no action is permitted to has one response left. -/
theorem settled (M : Machine A R α S Q W B) (s₀ : S) (cs : List (Choice Q W B))
    (hcode : ∀ q, (M.code q).Holds (G q) (Post q) []) {q : Q} {d : List (Done A R)}
    (hstuck : ∀ a, ¬ G q d a) (hs : l <:+ (M.run s₀ cs).log) (hq : requestOf i l = some q)
    (hp : project i l = d) {p : Prog A R α} (hpath : Path (M.code q) d p) :
    ∃ out, Post q d out ∧ (∀ out', .responded i out' ∈ (M.run s₀ cs).log → out' = out) ∧
      ∀ w, .responded i out ∈ (M.step (M.run s₀ cs) (.act i w)).log := by
  have hlegal := legal_run M s₀ cs
  have hlog : project i (M.run s₀ cs).log = d :=
    hlegal.project_eq_of_stuck hcode hstuck hs hq hp
  have hq' : requestOf i (M.run s₀ cs).log = some q := hlegal.requestOf_of_suffix hs hq
  have hholds := (hcode q).of_path hpath
  cases p with
  | act a next => exact absurd hholds.1 (hstuck a)
  | ret out =>
      have hunique : ∀ out', .responded i out' ∈ (M.run s₀ cs).log → out' = out := by
        intro out' hmem
        obtain ⟨before, hresponse⟩ := exists_suffix_of_mem hmem
        have hbefore := (List.suffix_cons _ _).trans hresponse
        obtain ⟨⟨q', hq'', hret⟩, _⟩ := hlegal.of_suffix hresponse
        obtain rfl : q' = q :=
          Option.some.inj ((hlegal.requestOf_of_suffix hbefore hq'').symm.trans hq')
        have heq : project i before = d := by
          apply hret.eq_of_ret hpath
          rw [← hlog]
          exact project_suffix hbefore
        rw [heq] at hret
        cases hret.unique hpath
        rfl
      refine ⟨out, hholds, hunique, fun w ↦ ?_⟩
      rcases running_or_responded M s₀ cs hq' with ⟨p, hthread, hpath'⟩ | ⟨out', hmem⟩
      · rw [hlog] at hpath'
        cases hpath'.unique hpath
        simp only [Machine.step, hthread]
        exact List.mem_cons_self
      · rw [hunique out' hmem] at hmem
        exact (log_suffix_step M _ _).mem hmem

end Machine

end AtomicProgram
