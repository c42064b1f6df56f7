import CurrencyConverter.Library.AtomicProgram

/-!
# Actions that are critical sections

In a `Machine` an action is one step.  Here an action may take a mutex, run statement by
statement on what the mutex guards, and release it at its end, while other threads are
anywhere in theirs.  `Within` says what a section can have done so far.

If every section comes to what its atomic action does, the pool with mutexes simulates
the machine: a section stands for its action at the moment it releases the mutex.  The
sections of one mutex follow each other, so what the later ones read is later.
-/

namespace CriticalSection

open AtomicProgram

/-- The sections behind the actions.  `F l` is what the mutex `l` guards, `C l` where
its holder can be. -/
structure Sections (A : Type) (R : A → Type) (W : Type) {L : Type} (F C : L → Type) where
  /-- The mutex of an action and where its section begins. -/
  begins : A → Option ((l : L) × C l)
  /-- Where the section of the background thread of a mutex begins. -/
  tends : (l : L) → C l
  /-- The next statement, `none` where it is undefined. -/
  stmt : {l : L} → W → C l → F l → Option (C l × F l)
  returns : {l : L} → C l → (a : A) → Option (R a)
  ended : {l : L} → C l → Bool
  /-- The answer to an action that takes no mutex. -/
  plain : W → (a : A) → R a

/-- What can be seen of a pool; a section comes with the worlds of its statements, the
latest first. -/
inductive Event (A : Type) (R : A → Type) (α Q L W : Type)
  | started (i : ℕ) (q : Q)
  | acted (i : ℕ) (ws : List W) (a : A) (r : R a)
  | responded (i : ℕ) (out : α)
  | tended (l : L) (ws : List W)

/-- Who is inside a section, `none` for the background thread, where, and what the
statements so far met. -/
structure Holder (C W : Type) where
  who : Option ℕ
  place : C
  ws : List W

structure Pool (A : Type) (R : A → Type) (α Q W : Type) {L : Type} (F C : L → Type) where
  cells : (l : L) → F l
  holders : (l : L) → Option (Holder (C l) W)
  threads : List (Q × Option (Prog A R α))
  log : List (Event A R α Q L W)

variable {A : Type} {R : A → Type} {α Q W B L : Type} {F C S : L → Type}

namespace Sections

variable (K : Sections A R W F C)

/-- A section that began at `c₀` on `f₀` has come to `c` and `f`. -/
inductive Within {l : L} (c₀ : C l) (f₀ : F l) : List W → C l → F l → Prop
  | enter : Within c₀ f₀ [] c₀ f₀
  | stmt {ws : List W} {c c' : C l} {f f' : F l} (h : Within c₀ f₀ ws c f) {w : W}
      (hstmt : K.stmt w c f = some (c', f')) : Within c₀ f₀ (w :: ws) c' f'

/-- What a section starts with and every statement keeps holds wherever the section is. -/
theorem Within.preserved {K : Sections A R W F C} {l : L} {c₀ : C l} {f₀ : F l}
    (Inv : List W → C l → F l → Prop) (hstart : Inv [] c₀ f₀)
    (hstmt : ∀ ws c f w c' f', Inv ws c f → K.stmt w c f = some (c', f') →
      Inv (w :: ws) c' f') {ws : List W} {c : C l} {f : F l} (h : K.Within c₀ f₀ ws c f) :
    Inv ws c f := by
  induction h with
  | enter => exact hstart
  | stmt _ hnext ih => exact hstmt _ _ _ _ _ _ ih hnext

variable [DecidableEq L]

def hold (pool : Pool A R α Q W F C) (l : L) (h : Option (Holder (C l) W)) :
    Pool A R α Q W F C :=
  { pool with holders := Function.update pool.holders l h }

def store (pool : Pool A R α Q W F C) (l : L) (f : F l) : Pool A R α Q W F C :=
  { pool with cells := Function.update pool.cells l f }

/-- The holder of `l` takes its next statement. -/
def advance (pool : Pool A R α Q W F C) (l : L) (h : Holder (C l) W) (w : W) :
    Option (Pool A R α Q W F C) :=
  match K.stmt w h.place (pool.cells l) with
  | none => none
  | some (c, f) => some (store (hold pool l (some ⟨h.who, c, w :: h.ws⟩)) l f)

/-- Thread `i` goes on to the program `p`. -/
def resume (pool : Pool A R α Q W F C) (i : ℕ) (q : Q) (p : Option (Prog A R α))
    (e : Event A R α Q L W) : Pool A R α Q W F C :=
  { pool with threads := pool.threads.set i (q, p), log := e :: pool.log }

/-- A step of thread `i`, whose next action takes the mutex `l`.  It waits while another
thread is inside. -/
def enterOrAdvance (pool : Pool A R α Q W F C) (i : ℕ) (w : W) (q : Q) (a : A)
    (next : R a → Prog A R α) (l : L) (c : C l) : Option (Pool A R α Q W F C) :=
  match pool.holders l with
  | none => some (hold pool l (some ⟨some i, c, []⟩))
  | some h =>
      if h.who = some i then
        match K.returns h.place a with
        | some r => some (resume (hold pool l none) i q (some (next r)) (.acted i h.ws a r))
        | none => K.advance pool l h w
      else some pool

def act (pool : Pool A R α Q W F C) (i : ℕ) (w : W) : Option (Pool A R α Q W F C) :=
  match pool.threads[i]? with
  | some (q, some (.ret out)) => some (resume pool i q none (.responded i out))
  | some (q, some (.act a next)) =>
      match K.begins a with
      | none => some (resume pool i q (some (next (K.plain w a))) (.acted i [w] a (K.plain w a)))
      | some ⟨l, c⟩ => K.enterOrAdvance pool i w q a next l c
  | _ => some pool

/-- A step of the background thread of `l`. -/
def tend (pool : Pool A R α Q W F C) (l : L) (w : W) : Option (Pool A R α Q W F C) :=
  match pool.holders l with
  | none => some (hold pool l (some ⟨none, K.tends l, []⟩))
  | some h =>
      if h.who = none then
        if K.ended h.place then
          some { hold pool l none with log := .tended l h.ws :: pool.log }
        else K.advance pool l h w
      else some pool

def step (code : Q → Prog A R α) (pool : Pool A R α Q W F C) :
    Choice Q W (L × W) → Option (Pool A R α Q W F C)
  | .start q => some { pool with
      threads := pool.threads ++ [(q, some (code q))]
      log := .started pool.threads.length q :: pool.log }
  | .act i w => K.act pool i w
  | .tend (l, w) => K.tend pool l w

/-- The pool after the choices, the latest first; `none` once a statement is undefined. -/
def run (code : Q → Prog A R α) (f₀ : (l : L) → F l) :
    List (Choice Q W (L × W)) → Option (Pool A R α Q W F C)
  | [] => some ⟨f₀, fun _ ↦ none, [], []⟩
  | c :: earlier => (run code f₀ earlier).bind (K.step code · c)

/-! ## Sections that implement their actions -/

/-- Where the section of `who` under the mutex `l` began. -/
def Began (threads : List (Q × Option (Prog A R α))) (l : L) (c₀ : C l) : Option ℕ → Prop
  | none => c₀ = K.tends l
  | some i => ∃ q a next, threads[i]? = some (q, some (.act a next)) ∧ K.begins a = some ⟨l, c₀⟩

/-- No statement of a section is undefined, and at its end it has done what its action
does in one step, in a world that one of its statements met.  `Drawn` relates the worlds
of a background section to its step. -/
structure Implements (M : Machine A R α ((l : L) → S l) Q W B) (view : {l : L} → S l → F l)
    (Drawn : L → List W → B → Prop) : Prop where
  plain : ∀ a, K.begins a = none → ∀ w s, M.answer w s a = (K.plain w a, s)
  act_defined : ∀ {a l} {c₀ c : C l} {s : S l} {ws f}, K.begins a = some ⟨l, c₀⟩ →
    K.Within c₀ (view s) ws c f → K.returns c a = none → ∀ w, K.stmt w c f ≠ none
  act : ∀ {a l} {c₀ c : C l} {s : (l : L) → S l} {ws f r}, K.begins a = some ⟨l, c₀⟩ →
    K.Within c₀ (view (s l)) ws c f → K.returns c a = some r →
      ∃ w ∈ ws, ∃ s', M.answer w s a = (r, Function.update s l s') ∧ view s' = f
  tend_defined : ∀ {l} {c : C l} {s : S l} {ws f},
    K.Within (K.tends l) (view s) ws c f → K.ended c = false → ∀ w, K.stmt w c f ≠ none
  tend : ∀ {l} {c : C l} {s : (l : L) → S l} {ws f},
    K.Within (K.tends l) (view (s l)) ws c f → K.ended c = true →
      ∃ b, Drawn l ws b ∧ ∃ s', M.tend b s = Function.update s l s' ∧ view s' = f

end Sections

/-- An event of the pool with mutexes is one of the machine, which meets one of its
worlds. -/
inductive Matches (Drawn : L → List W → B → Prop) :
    Event A R α Q L W → AtomicProgram.Event A R α Q W B → Prop
  | started (i : ℕ) (q : Q) : Matches Drawn (.started i q) (.started i q)
  | acted (i : ℕ) {ws : List W} {w : W} (hw : w ∈ ws) (a : A) (r : R a) :
      Matches Drawn (.acted i ws a r) (.acted i w a r)
  | responded (i : ℕ) (out : α) : Matches Drawn (.responded i out) (.responded i out)
  | tended {l : L} {ws : List W} {b : B} (h : Drawn l ws b) :
      Matches Drawn (.tended l ws) (.tended b)

namespace Sections

variable [DecidableEq L] (K : Sections A R W F C) (M : Machine A R α ((l : L) → S l) Q W B)
  (view : {l : L} → S l → F l) (Drawn : L → List W → B → Prop)

/-- The threads and the log are those of the machine.  What a free mutex guards is what the
machine has, and a holder has come from there to where it is. -/
structure Simulates (pool : Pool A R α Q W F C)
    (atomic : AtomicProgram.Pool A R α ((l : L) → S l) Q W B) : Prop where
  threads : pool.threads = atomic.threads
  log : List.Forall₂ (Matches Drawn) pool.log atomic.log
  free : ∀ l, pool.holders l = none → pool.cells l = view (atomic.shared l)
  held : ∀ l h, pool.holders l = some h → ∃ c₀, K.Began pool.threads l c₀ h.who ∧
    K.Within c₀ (view (atomic.shared l)) h.ws h.place (pool.cells l)

variable {K} {M} {view} {Drawn} {pool : Pool A R α Q W F C}
  {atomic : AtomicProgram.Pool A R α ((l : L) → S l) Q W B}

omit [DecidableEq L] in
theorem Began.mono {threads threads' : List (Q × Option (Prog A R α))} {l : L} {c₀ : C l}
    {who : Option ℕ} (h : K.Began threads l c₀ who)
    (hkeep : ∀ i x, who = some i → threads[i]? = some x → threads'[i]? = some x) :
    K.Began threads' l c₀ who := by
  cases who with
  | none => exact h
  | some i =>
      obtain ⟨q, a, next, hi, hbegins⟩ := h
      exact ⟨q, a, next, hkeep i _ rfl hi, hbegins⟩

omit [DecidableEq L] in
/-- A thread inside a section is at the action of that section. -/
theorem Simulates.inside (h : K.Simulates view Drawn pool atomic) {i : ℕ} {q : Q}
    {p : Prog A R α} (hi : pool.threads[i]? = some (q, some p)) {l : L} {hd : Holder (C l) W}
    (hl : pool.holders l = some hd) (hwho : hd.who = some i) :
    ∃ a next c₀, p = .act a next ∧ K.begins a = some ⟨l, c₀⟩ ∧
      K.Within c₀ (view (atomic.shared l)) hd.ws hd.place (pool.cells l) := by
  obtain ⟨c₀, hbegan, hwithin⟩ := h.held l hd hl
  rw [hwho] at hbegan
  obtain ⟨q', a, next, hi', hbegins⟩ := hbegan
  cases hi.symm.trans hi'
  exact ⟨a, next, c₀, rfl, hbegins, hwithin⟩

omit [DecidableEq L] in
theorem Simulates.start (h : K.Simulates view Drawn pool atomic) (q : Q) (p : Prog A R α) :
    K.Simulates view Drawn
      { pool with
        threads := pool.threads ++ [(q, some p)]
        log := .started pool.threads.length q :: pool.log }
      { atomic with
        threads := atomic.threads ++ [(q, some p)]
        log := .started atomic.threads.length q :: atomic.log } where
  threads := by rw [h.threads]
  log := by
    rw [← h.threads]
    exact .cons (.started _ _) h.log
  free := h.free
  held l hd hl := by
    obtain ⟨c₀, hbegan, hwithin⟩ := h.held l hd hl
    refine ⟨c₀, hbegan.mono ?_, hwithin⟩
    intro i x _ hx
    rw [List.getElem?_append_left (List.getElem?_eq_some_iff.mp hx).1]
    exact hx

omit [DecidableEq L] in
/-- A thread outside every section goes on. -/
theorem Simulates.resume (h : K.Simulates view Drawn pool atomic) {i : ℕ}
    (hout : ∀ l hd, pool.holders l = some hd → hd.who ≠ some i) (q : Q)
    (p : Option (Prog A R α)) {e : Event A R α Q L W} {e' : AtomicProgram.Event A R α Q W B}
    (he : Matches Drawn e e') :
    K.Simulates view Drawn (resume pool i q p e)
      { atomic with threads := atomic.threads.set i (q, p), log := e' :: atomic.log } where
  threads := by rw [← h.threads, Sections.resume]
  log := .cons he h.log
  free := h.free
  held l hd hl := by
    obtain ⟨c₀, hbegan, hwithin⟩ := h.held l hd hl
    refine ⟨c₀, hbegan.mono ?_, hwithin⟩
    intro j x hj hx
    have hne : i ≠ j := by
      rintro rfl
      exact hout l hd hl hj
    rw [Sections.resume, List.getElem?_set_ne hne]
    exact hx

@[simp] theorem hold_self (pool : Pool A R α Q W F C) (l : L) (h : Option (Holder (C l) W)) :
    (hold pool l h).holders l = h := Function.update_self ..

@[simp] theorem hold_of_ne (pool : Pool A R α Q W F C) {l l' : L} (hne : l' ≠ l)
    (h : Option (Holder (C l) W)) : (hold pool l h).holders l' = pool.holders l' :=
  Function.update_of_ne hne ..

@[simp] theorem store_self (pool : Pool A R α Q W F C) (l : L) (f : F l) :
    (store pool l f).cells l = f := Function.update_self ..

@[simp] theorem store_of_ne (pool : Pool A R α Q W F C) {l l' : L} (hne : l' ≠ l) (f : F l) :
    (store pool l f).cells l' = pool.cells l' := Function.update_of_ne hne ..

/-- A free mutex is taken. -/
theorem Simulates.acquire (h : K.Simulates view Drawn pool atomic) {l : L}
    (hfree : pool.holders l = none) {who : Option ℕ} {c : C l}
    (hbegan : K.Began pool.threads l c who) :
    K.Simulates view Drawn (hold pool l (some ⟨who, c, []⟩)) atomic where
  threads := h.threads
  log := h.log
  free l' hl' := by
    by_cases hne : l' = l
    · subst hne
      simp at hl'
    · rw [hold_of_ne _ hne] at hl'
      exact h.free l' hl'
  held l' hd hl' := by
    by_cases hne : l' = l
    · subst hne
      rw [hold_self] at hl'
      cases hl'
      refine ⟨c, hbegan, ?_⟩
      rw [← h.free l' hfree]
      exact .enter
    · rw [hold_of_ne _ hne] at hl'
      exact h.held l' hd hl'

/-- A holder takes a statement that is defined. -/
theorem Simulates.advance (h : K.Simulates view Drawn pool atomic) {l : L}
    {hd : Holder (C l) W} (hl : pool.holders l = some hd) {w : W}
    (hdefined : K.stmt w hd.place (pool.cells l) ≠ none) :
    ∃ pool', K.advance pool l hd w = some pool' ∧ K.Simulates view Drawn pool' atomic := by
  obtain ⟨⟨c, f⟩, hstmt⟩ := Option.ne_none_iff_exists'.mp hdefined
  obtain ⟨c₀, hbegan, hwithin⟩ := h.held l hd hl
  refine ⟨store (hold pool l (some ⟨hd.who, c, w :: hd.ws⟩)) l f, ?_, h.threads, h.log, ?_, ?_⟩
  · simp only [Sections.advance, hstmt]
  · intro l' hl'
    by_cases hne : l' = l
    · subst hne
      cases (hold_self ..).symm.trans hl'
    · rw [store_of_ne _ hne]
      exact h.free l' ((hold_of_ne _ hne _).symm.trans hl')
  · intro l' hd' hl'
    by_cases hne : l' = l
    · subst hne
      cases (hold_self ..).symm.trans hl'
      rw [store_self]
      exact ⟨c₀, hbegan, hwithin.stmt hstmt⟩
    · rw [store_of_ne _ hne]
      exact h.held l' hd' ((hold_of_ne _ hne _).symm.trans hl')

/-- A mutex is released when the machine has come to what its section left. -/
theorem Simulates.release (h : K.Simulates view Drawn pool atomic) {l : L} {s : S l}
    (hs : view s = pool.cells l) :
    K.Simulates view Drawn (hold pool l none)
      { atomic with shared := Function.update atomic.shared l s } where
  threads := h.threads
  log := h.log
  free l' hl' := by
    by_cases hne : l' = l
    · subst hne
      exact hs.symm.trans (congrArg view (Function.update_self ..).symm)
    · rw [hold_of_ne _ hne] at hl'
      exact (h.free l' hl').trans (congrArg view (Function.update_of_ne hne ..).symm)
  held l' hd hl' := by
    by_cases hne : l' = l
    · subst hne
      simp at hl'
    · rw [hold_of_ne _ hne] at hl'
      simp only [Function.update_of_ne hne]
      exact h.held l' hd hl'

/-- A thread whose section has ended releases its mutex, and the machine does the action. -/
theorem Simulates.leave (himpl : K.Implements M view Drawn)
    (h : K.Simulates view Drawn pool atomic) {i : ℕ} {q : Q} {a : A} {next : R a → Prog A R α}
    (hi : pool.threads[i]? = some (q, some (.act a next))) {l : L} {hd : Holder (C l) W}
    (hl : pool.holders l = some hd) (hwho : hd.who = some i) {r : R a}
    (hr : K.returns hd.place a = some r) :
    ∃ w, K.Simulates view Drawn
      (Sections.resume (hold pool l none) i q (some (next r)) (.acted i hd.ws a r))
      (M.step atomic (.act i w)) := by
  obtain ⟨a', next', c₀, heq, hbegins, hwithin⟩ := h.inside hi hl hwho
  cases heq
  obtain ⟨w, hw, s, hanswer, hs⟩ := himpl.act hbegins hwithin hr
  refine ⟨w, ?_⟩
  have hout : ∀ l' hd', (hold pool l none).holders l' = some hd' → hd'.who ≠ some i := by
    intro l' hd' hl' hwho'
    by_cases hne : l' = l
    · subst hne
      simp at hl'
    · rw [hold_of_ne _ hne] at hl'
      obtain ⟨_, _, _, heq', hbegins', _⟩ := h.inside hi hl' hwho'
      cases heq'
      exact hne (congrArg Sigma.fst (Option.some.inj (hbegins'.symm.trans hbegins)))
  have hi' : atomic.threads[i]? = some (q, some (.act a next)) := h.threads ▸ hi
  simp only [Machine.step, hi', hanswer]
  exact (h.release hs).resume hout q _ (.acted i hw a r)

theorem Simulates.leave_background (himpl : K.Implements M view Drawn)
    (h : K.Simulates view Drawn pool atomic) {l : L} {hd : Holder (C l) W}
    (hl : pool.holders l = some hd) (hwho : hd.who = none) (hended : K.ended hd.place = true) :
    ∃ b, K.Simulates view Drawn { hold pool l none with log := .tended l hd.ws :: pool.log }
      (M.step atomic (.tend b)) := by
  obtain ⟨c₀, hbegan, hwithin⟩ := h.held l hd hl
  rw [hwho] at hbegan
  cases hbegan
  obtain ⟨b, hdrawn, s, htend, hs⟩ := himpl.tend hwithin hended
  refine ⟨b, ?_⟩
  have hreleased := h.release hs
  simp only [Machine.step, htend]
  exact ⟨hreleased.threads, .cons (.tended hdrawn) hreleased.log, hreleased.free, hreleased.held⟩

/-- A step of a thread whose next action takes a mutex. -/
theorem Simulates.enterOrAdvance (himpl : K.Implements M view Drawn)
    (h : K.Simulates view Drawn pool atomic) {i : ℕ} {q : Q} {a : A} {next : R a → Prog A R α}
    (hi : pool.threads[i]? = some (q, some (.act a next))) {l : L} {c : C l}
    (hbegins : K.begins a = some ⟨l, c⟩) (w : W) :
    ∃ pool', K.enterOrAdvance pool i w q a next l c = some pool' ∧
      (K.Simulates view Drawn pool' atomic ∨
        ∃ c, K.Simulates view Drawn pool' (M.step atomic c)) := by
  unfold Sections.enterOrAdvance
  cases hl : pool.holders l with
  | none => exact ⟨_, rfl, .inl (h.acquire hl ⟨q, a, next, hi, hbegins⟩)⟩
  | some hd =>
      by_cases hwho : hd.who = some i
      · simp only [hwho, if_true]
        cases hr : K.returns hd.place a with
        | some r =>
            obtain ⟨w', hleft⟩ := h.leave himpl hi hl hwho hr
            exact ⟨_, rfl, .inr ⟨_, hleft⟩⟩
        | none =>
            obtain ⟨_, _, c₀, heq, hbegins', hwithin⟩ := h.inside hi hl hwho
            cases heq
            obtain ⟨pool', hadvance, hsim⟩ :=
              h.advance hl (himpl.act_defined hbegins' hwithin hr w)
            exact ⟨pool', hadvance, .inl hsim⟩
      · simp only [hwho, if_false]
        exact ⟨pool, rfl, .inl h⟩

theorem Simulates.act (himpl : K.Implements M view Drawn)
    (h : K.Simulates view Drawn pool atomic) (i : ℕ) (w : W) :
    ∃ pool', K.act pool i w = some pool' ∧
      (K.Simulates view Drawn pool' atomic ∨
        ∃ c, K.Simulates view Drawn pool' (M.step atomic c)) := by
  unfold Sections.act
  cases hi : pool.threads[i]? with
  | none => exact ⟨pool, rfl, .inl h⟩
  | some thread =>
      have hi' : atomic.threads[i]? = some thread := h.threads ▸ hi
      obtain ⟨q, _ | out | ⟨a, next⟩⟩ := thread
      · exact ⟨pool, rfl, .inl h⟩
      · refine ⟨_, rfl, .inr ⟨.act i w, ?_⟩⟩
        simp only [Machine.step, hi']
        apply h.resume _ q none (.responded i out)
        intro l hd hl hwho
        obtain ⟨_, _, _, heq, _⟩ := h.inside hi hl hwho
        cases heq
      · cases hbegins : K.begins a with
        | none =>
            simp only [hbegins]
            refine ⟨_, rfl, .inr ⟨.act i w, ?_⟩⟩
            simp only [Machine.step, hi', himpl.plain a hbegins]
            apply h.resume _ q _ (.acted i List.mem_cons_self a _)
            intro l hd hl hwho
            obtain ⟨_, _, _, heq, hbegins', _⟩ := h.inside hi hl hwho
            cases heq
            cases hbegins.symm.trans hbegins'
        | some entry =>
            simp only [hbegins]
            exact h.enterOrAdvance himpl hi hbegins w

theorem Simulates.tend (himpl : K.Implements M view Drawn)
    (h : K.Simulates view Drawn pool atomic) (l : L) (w : W) :
    ∃ pool', K.tend pool l w = some pool' ∧
      (K.Simulates view Drawn pool' atomic ∨
        ∃ c, K.Simulates view Drawn pool' (M.step atomic c)) := by
  unfold Sections.tend
  cases hl : pool.holders l with
  | none => exact ⟨_, rfl, .inl (h.acquire hl rfl)⟩
  | some hd =>
      by_cases hwho : hd.who = none
      · simp only [hwho, if_true]
        cases hended : K.ended hd.place with
        | true =>
            obtain ⟨b, hleft⟩ := h.leave_background himpl hl hwho hended
            exact ⟨_, rfl, .inr ⟨_, hleft⟩⟩
        | false =>
            obtain ⟨c₀, hbegan, hwithin⟩ := h.held l hd hl
            rw [hwho] at hbegan
            cases hbegan
            obtain ⟨pool', hadvance, hsim⟩ :=
              h.advance hl (himpl.tend_defined hwithin hended w)
            exact ⟨pool', hadvance, .inl hsim⟩
      · simp only [hwho, if_false]
        exact ⟨pool, rfl, .inl h⟩

/-- Every step of the pool with mutexes is defined, and is a step of the machine or none. -/
theorem Simulates.step (himpl : K.Implements M view Drawn)
    (h : K.Simulates view Drawn pool atomic) (choice : Choice Q W (L × W)) :
    ∃ pool', K.step M.code pool choice = some pool' ∧
      (K.Simulates view Drawn pool' atomic ∨
        ∃ c, K.Simulates view Drawn pool' (M.step atomic c)) := by
  cases choice with
  | start q => exact ⟨_, rfl, .inr ⟨.start q, h.start q (M.code q)⟩⟩
  | act i w => exact h.act himpl i w
  | tend b => exact h.tend himpl b.1 b.2

/-- No run of the pool with mutexes is undefined, and each one is simulated by a run of the
machine. -/
theorem simulates_run (himpl : K.Implements M view Drawn) (s₀ : (l : L) → S l)
    (cs : List (Choice Q W (L × W))) :
    ∃ pool schedule, K.run M.code (fun l ↦ view (s₀ l)) cs = some pool ∧
      K.Simulates view Drawn pool (M.run s₀ schedule) := by
  induction cs with
  | nil => exact ⟨_, [], rfl, rfl, .nil, fun _ _ ↦ rfl, fun _ _ hl ↦ nomatch hl⟩
  | cons c earlier ih =>
      obtain ⟨pool, schedule, hrun, hsim⟩ := ih
      obtain ⟨pool', hstep, hsim' | ⟨c', hsim'⟩⟩ := hsim.step himpl c
      · exact ⟨pool', schedule, by rw [run, hrun]; exact hstep, hsim'⟩
      · exact ⟨pool', c' :: schedule, by rw [run, hrun]; exact hstep, hsim'⟩

/-! ## The sections of one mutex -/

variable (K)

/-- The worlds of an event that is a section of `l`. -/
def on (l : L) : Event A R α Q L W → Option (List W)
  | .acted _ ws a _ =>
      match K.begins a with
      | some ⟨l', _⟩ => if l' = l then some ws else none
      | none => none
  | .tended l' ws => if l' = l then some ws else none
  | _ => none

/-- The sections of `l`, the latest first, with the one that is not over yet. -/
def sections (pool : Pool A R α Q W F C) (l : L) : List (List W) :=
  match pool.holders l with
  | none => pool.log.filterMap (K.on l)
  | some h => h.ws :: pool.log.filterMap (K.on l)

def world : Choice Q W (L × W) → Option W
  | .start _ => none
  | .act _ w => some w
  | .tend (_, w) => some w

/-- How the sections of a mutex can change in one step, which meets the world `w`. -/
inductive Grows (w : Option W) : List (List W) → List (List W) → Prop
  | same (old : List (List W)) : Grows w old old
  | enter (old : List (List W)) : Grows w old ([] :: old)
  | stmt {v : W} (hv : w = some v) (ws : List W) (rest : List (List W)) :
      Grows w (ws :: rest) ((v :: ws) :: rest)

theorem grows_acquire (pool : Pool A R α Q W F C) {l : L} (hl : pool.holders l = none)
    (who : Option ℕ) (c : C l) (w : Option W) (l' : L) :
    Grows w (K.sections pool l') (K.sections (hold pool l (some ⟨who, c, []⟩)) l') := by
  by_cases hne : l' = l
  · subst hne
    simp only [sections, hold_self, hl]
    exact .enter _
  · simp only [sections, hold_of_ne _ hne]
    exact .same _

theorem grows_advance {pool pool' : Pool A R α Q W F C} {l : L} {h : Holder (C l) W}
    (hl : pool.holders l = some h) {w : W} (hadvance : K.advance pool l h w = some pool') (l' : L) :
    Grows (some w) (K.sections pool l') (K.sections pool' l') := by
  unfold Sections.advance at hadvance
  split at hadvance
  · cases hadvance
  · cases hadvance
    by_cases hne : l' = l
    · subst hne
      simp only [sections, store, hold_self, hl]
      exact .stmt rfl _ _
    · simp only [sections, store, hold_of_ne _ hne]
      exact .same _

/-- Who releases a mutex leaves its sections as they are. -/
theorem sections_release {pool : Pool A R α Q W F C} {l : L} {h : Holder (C l) W}
    (hl : pool.holders l = some h) {e : Event A R α Q L W}
    (he : ∀ l', K.on l' e = if l = l' then some h.ws else none)
    (threads : List (Q × Option (Prog A R α))) (l' : L) :
    K.sections { hold pool l none with threads := threads, log := e :: pool.log } l' =
      K.sections pool l' := by
  by_cases hne : l' = l
  · subst hne
    simp only [sections, hold_self, hl, List.filterMap_cons, he, if_true]
  · simp only [sections, hold_of_ne _ hne, List.filterMap_cons, he, if_neg (Ne.symm hne)]

theorem sections_log (pool : Pool A R α Q W F C) {e : Event A R α Q L W} {l : L}
    (he : K.on l e = none) (threads : List (Q × Option (Prog A R α))) :
    K.sections { pool with threads := threads, log := e :: pool.log } l = K.sections pool l := by
  simp only [sections, List.filterMap_cons, he]

theorem grows_act {pool pool' : Pool A R α Q W F C} {i : ℕ} {w : W}
    (hact : K.act pool i w = some pool') (l : L) :
    Grows (some w) (K.sections pool l) (K.sections pool' l) := by
  unfold Sections.act at hact
  split at hact
  · cases hact
    rw [resume, K.sections_log pool rfl]
    exact .same _
  · next q a next hi =>
    split at hact
    · next hbegins =>
      cases hact
      rw [resume, K.sections_log pool (by simp only [on, hbegins])]
      exact .same _
    · next l₀ c hbegins =>
      unfold Sections.enterOrAdvance at hact
      split at hact
      · next hl =>
        cases hact
        exact K.grows_acquire pool hl _ _ _ l
      · next h hl =>
        split at hact
        · split at hact
          · next r hr =>
            cases hact
            have hon : ∀ l', K.on l' (.acted i h.ws a r : Event A R α Q L W) =
                if l₀ = l' then some h.ws else none := by
              intro l'
              simp only [on, hbegins]
            have hsame : K.sections (resume (hold pool l₀ none) i q (some (next r))
                (.acted i h.ws a r)) l = K.sections pool l := K.sections_release hl hon _ l
            rw [hsame]
            exact .same _
          · exact K.grows_advance hl hact l
        · cases hact
          exact .same _
  · cases hact
    exact .same _

theorem grows_tend {pool pool' : Pool A R α Q W F C} {l₀ : L} {w : W}
    (htend : K.tend pool l₀ w = some pool') (l : L) :
    Grows (some w) (K.sections pool l) (K.sections pool' l) := by
  unfold Sections.tend at htend
  split at htend
  · next hl =>
    cases htend
    exact K.grows_acquire pool hl _ _ _ l
  · next h hl =>
    split at htend
    · split at htend
      · cases htend
        have hsame : K.sections { hold pool l₀ none with log := .tended l₀ h.ws :: pool.log } l =
            K.sections pool l := K.sections_release hl (fun _ ↦ rfl) pool.threads l
        rw [hsame]
        exact .same _
      · exact K.grows_advance hl htend l
    · cases htend
      exact .same _

theorem grows_step {code : Q → Prog A R α} {pool pool' : Pool A R α Q W F C}
    {c : Choice Q W (L × W)} (hstep : K.step code pool c = some pool') (l : L) :
    Grows (world c) (K.sections pool l) (K.sections pool' l) := by
  cases c with
  | start q =>
      cases hstep
      rw [K.sections_log pool rfl]
      exact .same _
  | act i w => exact K.grows_act hstep l
  | tend b => exact K.grows_tend hstep l

/-- Among the sections of one mutex, what a later one met is not before what an earlier one
met. -/
def InOrder {τ : Type} [LE τ] (time : W → τ) (sections : List (List W)) : Prop :=
  sections.Pairwise fun later earlier ↦ ∀ w ∈ earlier, ∀ w' ∈ later, time w ≤ time w'

/-- If no step meets an earlier time than the one before it, the sections of each mutex are
in order. -/
theorem inOrder_run {τ : Type} [LE τ] {time : W → τ} {code : Q → Prog A R α}
    {f₀ : (l : L) → F l} {cs : List (Choice Q W (L × W))} {pool : Pool A R α Q W F C}
    (hrun : K.run code f₀ cs = some pool)
    (hclock : (cs.filterMap world).Pairwise fun later earlier ↦ time earlier ≤ time later)
    (l : L) :
    (∀ ws ∈ K.sections pool l, ∀ w ∈ ws, w ∈ cs.filterMap world) ∧
      InOrder time (K.sections pool l) := by
  induction cs generalizing pool with
  | nil =>
      cases hrun
      exact ⟨by simp [sections], List.Pairwise.nil⟩
  | cons c earlier ih =>
      obtain ⟨before, hbefore, hstep⟩ := Option.bind_eq_some_iff.mp hrun
      have hworlds : (c :: earlier).filterMap (world (Q := Q)) =
          (world c).toList ++ earlier.filterMap world := by
        cases hc : world c <;> simp [hc]
      rw [hworlds] at hclock ⊢
      obtain ⟨-, hearlier, hlater⟩ := List.pairwise_append.mp hclock
      obtain ⟨hseen, horder⟩ := ih hbefore hearlier
      have hold : ∀ ws ∈ K.sections before l, ∀ w ∈ ws,
          w ∈ (world c).toList ++ earlier.filterMap world :=
        fun ws hws w hw ↦ List.mem_append_right _ (hseen ws hws w hw)
      have hgrows := K.grows_step hstep l
      generalize K.sections before l = old at hgrows hseen horder hold
      generalize K.sections pool l = new at hgrows ⊢
      cases hgrows with
      | same => exact ⟨hold, horder⟩
      | enter =>
          refine ⟨List.forall_mem_cons.mpr ⟨by simp, hold⟩, List.pairwise_cons.mpr ⟨?_, horder⟩⟩
          simp
      | @stmt v hv ws rest =>
          have hnow : v ∈ (world c).toList := by simp [hv]
          obtain ⟨hws, hrest⟩ := List.forall_mem_cons.mp hold
          obtain ⟨hfirst, htail⟩ := List.pairwise_cons.mp horder
          refine ⟨List.forall_mem_cons.mpr ⟨?_, hrest⟩, List.pairwise_cons.mpr ⟨?_, htail⟩⟩
          · exact List.forall_mem_cons.mpr ⟨List.mem_append_left _ hnow, hws⟩
          · intro past hpast w hw
            refine List.forall_mem_cons.mpr ⟨?_, hfirst past hpast w hw⟩
            exact hlater v hnow w (hseen past (List.mem_cons_of_mem _ hpast) w hw)

/-! ## How long a mutex is held -/

/-- A step of the thread `who`; the background threads are told apart by their mutex. -/
def ofThread (l : L) (who : Option ℕ) : Choice Q W (L × W) → Bool
  | .start _ => false
  | .act i _ => decide (who = some i)
  | .tend (l', _) => decide (who = none ∧ l' = l)

variable {K}

/-- Who is not inside leaves who is. -/
theorem held_of_other {pool pool' : Pool A R α Q W F C} {code : Q → Prog A R α} {l : L}
    {h : Holder (C l) W} (hl : pool.holders l = some h) {c : Choice Q W (L × W)}
    (hother : ofThread l h.who c = false) (hstep : K.step code pool c = some pool') :
    pool'.holders l = some h := by
  have hadvanced : ∀ {l' h' w}, l ≠ l' → K.advance pool l' h' w = some pool' →
      pool'.holders l = some h := by
    intro l' h' w hne hadvance
    unfold Sections.advance at hadvance
    split at hadvance
    · cases hadvance
    · cases hadvance
      exact (hold_of_ne _ hne _).trans hl
  cases c with
  | start q =>
      cases hstep
      exact hl
  | act i w =>
      have hwho : h.who ≠ some i := by simpa [ofThread] using hother
      simp only [Sections.step, Sections.act] at hstep
      split at hstep
      · cases hstep
        exact hl
      · split at hstep
        · cases hstep
          exact hl
        · next l' c₀ _ =>
          by_cases hne : l = l'
          · subst hne
            simp only [Sections.enterOrAdvance, hl, hwho, if_false] at hstep
            cases hstep
            exact hl
          · unfold Sections.enterOrAdvance at hstep
            split at hstep
            · cases hstep
              exact (hold_of_ne _ hne _).trans hl
            · split at hstep
              · split at hstep
                · cases hstep
                  exact (hold_of_ne _ hne _).trans hl
                · exact hadvanced hne hstep
              · cases hstep
                exact hl
      · cases hstep
        exact hl
  | tend b =>
      obtain ⟨l', w⟩ := b
      simp only [Sections.step, Sections.tend] at hstep
      by_cases hne : l = l'
      · subst hne
        have hwho : h.who ≠ none := by simpa [ofThread] using hother
        simp only [hl, hwho, if_false] at hstep
        cases hstep
        exact hl
      · split at hstep
        · cases hstep
          exact (hold_of_ne _ hne _).trans hl
        · split at hstep
          · split at hstep
            · cases hstep
              exact (hold_of_ne _ hne _).trans hl
            · exact hadvanced hne hstep
          · cases hstep
            exact hl

/-- Who is inside takes a statement or leaves. -/
theorem Simulates.held_of_own (h : K.Simulates view Drawn pool atomic) {l : L}
    {hd : Holder (C l) W} (hl : pool.holders l = some hd) {c : Choice Q W (L × W)}
    (hown : ofThread l hd.who c = true) {pool' : Pool A R α Q W F C}
    (hstep : K.step M.code pool c = some pool') :
    pool'.holders l = none ∨ ∃ hd', pool'.holders l = some hd' ∧ hd'.who = hd.who ∧
      hd'.ws.length = hd.ws.length + 1 := by
  have hadvanced : ∀ {w}, K.advance pool l hd w = some pool' →
      ∃ hd', pool'.holders l = some hd' ∧ hd'.who = hd.who ∧
        hd'.ws.length = hd.ws.length + 1 := by
    intro w hadvance
    unfold Sections.advance at hadvance
    split at hadvance
    · cases hadvance
    · cases hadvance
      exact ⟨_, hold_self .., rfl, List.length_cons⟩
  obtain ⟨c₀, hbegan, -⟩ := h.held l hd hl
  cases c with
  | start q => cases hown
  | act i w =>
      have hwho : hd.who = some i := by simpa [ofThread] using hown
      rw [hwho] at hbegan
      obtain ⟨q, a, next, hi, hbegins⟩ := hbegan
      simp only [Sections.step, Sections.act, hi, hbegins, Sections.enterOrAdvance, hl, hwho,
        if_true] at hstep
      split at hstep
      · cases hstep
        exact .inl (hold_self ..)
      · exact .inr (hadvanced hstep)
  | tend b =>
      obtain ⟨l', w⟩ := b
      obtain ⟨hwho, rfl⟩ : hd.who = none ∧ l' = l := by simpa [ofThread] using hown
      simp only [Sections.step, Sections.tend, hl, hwho, if_true] at hstep
      split at hstep
      · cases hstep
        exact .inl (hold_self ..)
      · exact .inr (hadvanced hstep)

/-- While a mutex is not released, each step of its holder is one more statement. -/
theorem released_or_further (himpl : K.Implements M view Drawn) (s₀ : (l : L) → S l)
    {cs : List (Choice Q W (L × W))} {pool : Pool A R α Q W F C}
    (hrun : K.run M.code (fun l ↦ view (s₀ l)) cs = some pool) {l : L} {h : Holder (C l) W}
    (hl : pool.holders l = some h) (later : List (Choice Q W (L × W))) :
    ∃ pool', K.run M.code (fun l ↦ view (s₀ l)) (later ++ cs) = some pool' ∧
      ((∃ mid, mid <:+ later ∧ ∃ p, K.run M.code (fun l ↦ view (s₀ l)) (mid ++ cs) = some p ∧
          p.holders l = none) ∨
        ∃ h', pool'.holders l = some h' ∧ h'.who = h.who ∧
          h'.ws.length = h.ws.length + later.countP (ofThread l h.who)) := by
  induction later with
  | nil => exact ⟨pool, hrun, .inr ⟨h, hl, rfl, rfl⟩⟩
  | cons c later ih =>
      obtain ⟨before, hbefore, hcases⟩ := ih
      obtain ⟨pool', schedule, hrun', -⟩ := simulates_run himpl s₀ (c :: (later ++ cs))
      refine ⟨pool', hrun', ?_⟩
      rcases hcases with ⟨mid, hmid, hreleased⟩ | ⟨h', hl', hwho, hlen⟩
      · exact .inl ⟨mid, hmid.trans (List.suffix_cons _ _), hreleased⟩
      · obtain ⟨before', schedule', hbefore', hsim⟩ := simulates_run himpl s₀ (later ++ cs)
        cases hbefore.symm.trans hbefore'
        rw [Sections.run, hbefore] at hrun'
        have hstep : K.step M.code before c = some pool' := hrun'
        cases hc : ofThread l h.who c with
        | false =>
            have hheld := held_of_other hl' (hwho ▸ hc) hstep
            refine .inr ⟨h', hheld, hwho, ?_⟩
            rw [List.countP_cons_of_neg (by simp [hc]), hlen]
        | true =>
            rcases hsim.held_of_own hl' (hwho ▸ hc) hstep with hnone | ⟨h'', hl'', hwho', hlen'⟩
            · refine .inl ⟨c :: later, List.suffix_refl _, pool', ?_, hnone⟩
              rw [List.cons_append, Sections.run, hbefore]
              exact hstep
            · refine .inr ⟨h'', hl'', hwho'.trans hwho, ?_⟩
              rw [List.countP_cons_of_pos hc, hlen', hlen, Nat.add_assoc]

end Sections

end CriticalSection
