import CurrencyConverter.Library.AtomicProgram

/-!
# What programs of atomic actions cost

A bound on the cost of a program, however its actions are answered, adds up along `bind`.
In a pool it bounds what a thread has spent so far.  With every action at the same cost
it also bounds how often a thread has to be scheduled until it has responded, whatever
the other threads do, and the turns that the threads of a pool have left together.
-/

namespace AtomicProgram

variable {A : Type} {R : A → Type} {α β Q W B S : Type}

namespace Prog

/-- The actions along each path cost at most `n`. -/
def AtMost (cost : A → ℕ) : ℕ → Prog A R α → Prop
  | _, .ret _ => True
  | n, .act a next => cost a ≤ n ∧ ∀ r, AtMost cost (n - cost a) (next r)

def spent (cost : A → ℕ) : List (Done A R) → ℕ
  | [] => 0
  | d :: h => cost d.1 + spent cost h

@[simp] theorem spent_nil (cost : A → ℕ) : spent cost ([] : List (Done A R)) = 0 := rfl

@[simp] theorem spent_cons (cost : A → ℕ) (d : Done A R) (h : List (Done A R)) :
    spent cost (d :: h) = cost d.1 + spent cost h := rfl

variable {cost : A → ℕ} {m n : ℕ}

theorem AtMost.mono {p : Prog A R α} (hp : AtMost cost m p) (hle : m ≤ n) : AtMost cost n p := by
  induction p generalizing m n with
  | ret a => trivial
  | act a next ih =>
      exact ⟨Nat.le_trans hp.1 hle, fun r ↦ ih r (hp.2 r) (Nat.sub_le_sub_right hle _)⟩

/-- The rule of composition. -/
theorem AtMost.bind {p : Prog A R α} (hp : AtMost cost m p) {f : α → Prog A R β}
    (hf : ∀ a, AtMost cost n (f a)) : AtMost cost (m + n) (p >>= f) := by
  induction p generalizing m with
  | ret a => exact (hf a).mono (Nat.le_add_left n m)
  | act a next ih =>
      refine ⟨Nat.le_trans hp.1 (Nat.le_add_right m n), fun r ↦ ?_⟩
      have hnext := ih r (hp.2 r)
      rw [← Nat.sub_add_comm hp.1] at hnext
      exact hnext

/-- A program that threw does nothing more. -/
theorem AtMost.run_bind {E : Type} {p : ExceptT E (Prog A R) α} (hp : AtMost cost m p.run)
    {f : α → ExceptT E (Prog A R) β} (hf : ∀ a, AtMost cost n (f a).run) :
    AtMost cost (m + n) (p >>= f).run := by
  rw [ExceptT.run_bind]
  apply hp.bind
  intro out
  cases out with
  | ok a => exact hf a
  | error e => trivial

theorem atMost_perform {E : Type} (a : A) :
    AtMost cost (cost a) (perform (R := R) (E := E) a).run := ⟨Nat.le_refl _, fun _ ↦ trivial⟩

theorem AtMost.of_path {p p' : Prog A R α} (hp : AtMost cost n p) {h : List (Done A R)}
    (hpath : Path p h p') : spent cost h ≤ n ∧ AtMost cost (n - spent cost h) p' := by
  induction hpath with
  | start => exact ⟨Nat.zero_le n, hp⟩
  | @next h a k _ r ih =>
      obtain ⟨hle, hcost, hnext⟩ := ih
      have htotal : spent cost (⟨a, r⟩ :: h) = spent cost h + cost a := by
        rw [spent_cons, Nat.add_comm]
      rw [htotal, ← Nat.sub_sub]
      exact ⟨Nat.add_le_of_le_sub' hle hcost, hnext r⟩

theorem spent_eq_zero {h : List (Done A R)} : spent cost h = 0 ↔ ∀ d ∈ h, cost d.1 = 0 := by
  induction h with
  | nil => simp
  | cons d t ih => rw [spent_cons, Nat.add_eq_zero_iff, ih, List.forall_mem_cons]

/-- What costs nothing once it was paid for is paid for once. -/
theorem spent_le_one {h : List (Done A R)} (hunit : ∀ a, cost a ≤ 1)
    (honce : ∀ d t, d :: t <:+ h → cost d.1 ≠ 0 → spent cost t = 0) : spent cost h ≤ 1 := by
  induction h with
  | nil => exact Nat.zero_le 1
  | cons d t ih =>
      rw [spent_cons]
      by_cases hd : cost d.1 = 0
      · rw [hd, Nat.zero_add]
        exact ih fun d' t' hs ↦ honce d' t' (hs.trans (List.suffix_cons _ _))
      · rw [honce d t (List.suffix_refl _) hd]
        exact hunit d.1

end Prog

open Prog

namespace Machine

variable {M : Machine A R α S Q W B} {s₀ : S} {log : List (Event A R α Q W B)} {i : ℕ}

/-- No thread spends more than the bound of its program. -/
theorem spent_le {cost : A → ℕ} {n : ℕ} (h : M.Legal s₀ log) {q : Q}
    (hq : requestOf i log = some q) (hcode : AtMost cost n (M.code q)) :
    spent cost (project i log) ≤ n := by
  obtain ⟨p, hpath⟩ := h.path hq
  exact (hcode.of_path hpath).1

/-- A step of thread `i`. -/
def schedules (i : ℕ) : Choice Q W B → Bool
  | .act j _ => decide (j = i)
  | _ => false

/-- A thread has responded, or each of its turns was one of at most `n` actions. -/
theorem responded_or_left (M : Machine A R α S Q W B) (s₀ : S) (earlier : List (Choice Q W B))
    {q : Q} {n : ℕ} (hcode : AtMost (fun _ ↦ 1) n (M.code q)) (later : List (Choice Q W B)) :
    (∃ out, .responded (M.run s₀ earlier).threads.length out ∈
        (M.run s₀ (later ++ .start q :: earlier)).log) ∨
      ∃ p m, (M.run s₀ (later ++ .start q :: earlier)).threads[
          (M.run s₀ earlier).threads.length]? = some (q, some p) ∧ AtMost (fun _ ↦ 1) m p ∧
        m + later.countP (schedules (M.run s₀ earlier).threads.length) = n := by
  generalize hi : (M.run s₀ earlier).threads.length = i
  induction later with
  | nil =>
      refine .inr ⟨M.code q, n, ?_, hcode, rfl⟩
      simp [Machine.run, Machine.step, ← hi]
  | cons c later ih =>
      rcases ih with ⟨out, hout⟩ | ⟨p, m, hthread, hp, hcount⟩
      · exact .inl ⟨out, (log_suffix_step M _ c).mem hout⟩
      · rw [List.cons_append, Machine.run]
        generalize M.run s₀ (later ++ .start q :: earlier) = pool at hthread ⊢
        have hlt : i < pool.threads.length := (List.getElem?_eq_some_iff.mp hthread).1
        cases c with
        | start q' =>
            refine .inr ⟨p, m, ?_, hp, ?_⟩
            · rw [Machine.step, List.getElem?_append_left hlt, hthread]
            · rw [List.countP_cons_of_neg (by simp [schedules]), hcount]
        | tend b =>
            refine .inr ⟨p, m, hthread, hp, ?_⟩
            rw [List.countP_cons_of_neg (by simp [schedules]), hcount]
        | act j w =>
            by_cases hj : j = i
            · subst hj
              cases p with
              | ret out =>
                  left
                  simp only [Machine.step, hthread]
                  exact ⟨out, List.mem_cons_self⟩
              | act a next =>
                  have hpos : 1 ≤ m := hp.1
                  refine .inr ⟨_, m - 1, ?_, hp.2 (M.answer w pool.shared a).1, ?_⟩
                  · simp only [Machine.step, hthread]
                    exact List.getElem?_set_self hlt
                  · rw [List.countP_cons_of_pos (by simp [schedules])]
                    omega
            · refine .inr ⟨p, m, ?_, hp, ?_⟩
              · simp only [Machine.step]
                split
                · exact (List.getElem?_set_ne hj).trans hthread
                · exact (List.getElem?_set_ne hj).trans hthread
                · exact hthread
              · rw [List.countP_cons_of_neg (by simp [schedules, hj]), hcount]

/-- A thread of at most `n` actions has responded after `n + 1` turns. -/
theorem responds_within (M : Machine A R α S Q W B) (s₀ : S) (earlier : List (Choice Q W B))
    {q : Q} {n : ℕ} (hcode : AtMost (fun _ ↦ 1) n (M.code q)) {later : List (Choice Q W B)}
    (hturns : n < later.countP (schedules (M.run s₀ earlier).threads.length)) :
    ∃ out, .responded (M.run s₀ earlier).threads.length out ∈
      (M.run s₀ (later ++ .start q :: earlier)).log := by
  rcases M.responded_or_left s₀ earlier hcode later with hout | ⟨p, m, -, -, hcount⟩
  · exact hout
  · omega

/-! ## The turns that a pool has left -/

/-- At most `n` turns until the thread has responded. -/
def TurnsLeft : Option (Prog A R α) → ℕ → Prop
  | none, _ => True
  | some p, n => ∃ m, m < n ∧ AtMost (fun _ ↦ 1) m p

/-- At most `n` turns until every thread has responded. -/
def AllTurnsLeft : List (Q × Option (Prog A R α)) → ℕ → Prop
  | [], _ => True
  | thread :: threads, n => ∃ m k, m + k ≤ n ∧ TurnsLeft thread.2 m ∧ AllTurnsLeft threads k

theorem TurnsLeft.ret {out : α} {n : ℕ} (h : TurnsLeft (some (.ret out : Prog A R α)) n) :
    ∃ n', n' < n ∧ TurnsLeft (none : Option (Prog A R α)) n' := by
  obtain ⟨m, hlt, -⟩ := h
  exact ⟨m, hlt, trivial⟩

theorem TurnsLeft.act {a : A} {next : R a → Prog A R α} {n : ℕ}
    (h : TurnsLeft (some (.act a next)) n) (r : R a) :
    ∃ n', n' < n ∧ TurnsLeft (some (next r)) n' := by
  obtain ⟨m, hlt, hpos, hnext⟩ := h
  exact ⟨m, hlt, m - 1, Nat.sub_one_lt_of_le hpos (Nat.le_refl m), hnext r⟩

theorem AllTurnsLeft.append {threads : List (Q × Option (Prog A R α))} {n : ℕ}
    (h : AllTurnsLeft threads n) (q : Q) {p : Prog A R α} {m : ℕ}
    (hp : AtMost (fun _ ↦ 1) m p) : AllTurnsLeft (threads ++ [(q, some p)]) (n + (m + 1)) := by
  induction threads generalizing n with
  | nil => exact ⟨m + 1, 0, Nat.le_add_left _ _, ⟨m, Nat.lt_succ_self m, hp⟩, trivial⟩
  | cons thread threads ih =>
      obtain ⟨j, k, hle, hthread, hrest⟩ := h
      exact ⟨j, k + (m + 1), by omega, hthread, ih hrest⟩

/-- A turn of one thread is a turn of all. -/
theorem AllTurnsLeft.set {threads : List (Q × Option (Prog A R α))} {n i : ℕ} {q : Q}
    {o o' : Option (Prog A R α)} (h : AllTurnsLeft threads n) (hi : threads[i]? = some (q, o))
    (hturn : ∀ m, TurnsLeft o m → ∃ m', m' < m ∧ TurnsLeft o' m') :
    ∃ n', n' < n ∧ AllTurnsLeft (threads.set i (q, o')) n' := by
  induction threads generalizing n i with
  | nil => cases hi
  | cons thread threads ih =>
      obtain ⟨m, k, hle, hthread, hrest⟩ := h
      cases i with
      | zero =>
          cases hi
          obtain ⟨m', hlt, hm'⟩ := hturn m hthread
          exact ⟨m' + k, by omega, m', k, Nat.le_refl _, hm', hrest⟩
      | succ i =>
          obtain ⟨k', hlt, hk'⟩ := ih hrest hi
          exact ⟨m + k', by omega, m, k', Nat.le_refl _, hthread, hk'⟩

/-- A turn of a thread that has not responded uses one up. -/
theorem AllTurnsLeft.act (M : Machine A R α S Q W B) {pool : Pool A R α S Q W B} {n i : ℕ} {q : Q}
    {p : Prog A R α} (h : AllTurnsLeft pool.threads n) (hi : pool.threads[i]? = some (q, some p))
    (w : W) : ∃ n', n' < n ∧ AllTurnsLeft (M.step pool (.act i w)).threads n' := by
  simp only [Machine.step, hi]
  cases p with
  | ret out => exact h.set hi fun _ hm ↦ hm.ret
  | act a next => exact h.set hi fun _ hm ↦ hm.act _

def unanswered (threads : List (Q × Option (Prog A R α))) : ℕ := threads.countP (·.2.isSome)

theorem unanswered_eq_zero {threads : List (Q × Option (Prog A R α))} :
    unanswered threads = 0 ↔ ∀ thread ∈ threads, thread.2 = none := by
  simp only [unanswered, List.countP_eq_zero, Option.not_isSome_iff_eq_none]

/-- Threads that are where their programs came to have at most a bound on these left. -/
theorem Consistent.allTurnsLeft {pool : Pool A R α S Q W B} (h : M.Consistent s₀ pool) {n : ℕ}
    (hcode : ∀ q, AtMost (fun _ ↦ 1) n (M.code q)) :
    AllTurnsLeft pool.threads ((n + 1) * unanswered pool.threads) := by
  have hbounded : ∀ q p, (q, some p) ∈ pool.threads → AtMost (fun _ ↦ 1) n p := by
    intro q p hp
    obtain ⟨i, hi⟩ := List.getElem?_of_mem hp
    obtain ⟨-, hpath⟩ := h.running i q p hi
    exact ((hcode q).of_path hpath).2.mono (Nat.sub_le n _)
  generalize pool.threads = threads at hbounded
  induction threads with
  | nil => trivial
  | cons thread threads ih =>
      have hrest := ih fun q p hp ↦ hbounded q p (List.mem_cons_of_mem thread hp)
      obtain ⟨q, o⟩ := thread
      cases o with
      | none => exact ⟨0, _, by simp [unanswered], trivial, hrest⟩
      | some p =>
          have hp : AtMost (fun _ ↦ 1) n p := hbounded q p List.mem_cons_self
          refine ⟨n + 1, _, ?_, ⟨n, Nat.lt_succ_self n, hp⟩, hrest⟩
          have hone : unanswered ((q, some p) :: threads) = unanswered threads + 1 := by
            simp [unanswered]
          rw [hone]
          exact Nat.le_of_eq (by rw [Nat.mul_succ, Nat.add_comm])

end Machine

end AtomicProgram
