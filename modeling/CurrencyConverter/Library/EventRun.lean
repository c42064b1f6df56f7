import Mathlib.Data.List.Basic
import Mathlib.Data.List.Infix

/-!
# Runs of a partial step function

An event takes a state to the next one, or is impossible there.  A run takes the
events of a list in order.  Its rules: an invariant of the steps holds where a run
ends, and a property that each good step keeps, and each bad one breaks, holds all
along a run exactly when every step of the run is good.  The last event of a kind is in
one place only, and steps that use up a measure are bounded by it.
-/

namespace EventRun

variable {S E : Type} (step : S → E → Option S)

def run (s : S) (events : List E) : Option S := events.foldlM step s

/-- `P` holds initially and after each event of the run. -/
def Always (P : S → Prop) (s : S) (events : List E) : Prop :=
  ∀ past, past <+: events → ∀ s', run step s past = some s' → P s'

/-- Every step that the run takes is a good one where it is taken. -/
def EachStep (Good : S → E → Prop) (s : S) (events : List E) : Prop :=
  ∀ past e, past ++ [e] <+: events → ∀ s', run step s past = some s' →
    step s' e ≠ none → Good s' e

variable {step}

@[simp] theorem run_nil (s : S) : run step s [] = some s := rfl

theorem run_concat (s : S) (past : List E) (e : E) :
    run step s (past ++ [e]) = (run step s past).bind (step · e) := by
  simp [run, List.foldlM_append]

theorem run_concat_eq_some {s s'' : S} {past : List E} {e : E} :
    run step s (past ++ [e]) = some s'' ↔
      ∃ s', run step s past = some s' ∧ step s' e = some s'' := by
  rw [run_concat, Option.bind_eq_some_iff]

/-- An invariant of the steps holds where a run ends. -/
theorem run_inv {Inv : S → Prop} (hstep : ∀ s e s', Inv s → step s e = some s' → Inv s')
    {s s' : S} {events : List E} (hs : Inv s) (hrun : run step s events = some s') :
    Inv s' := by
  induction events using List.reverseRecOn generalizing s' with
  | nil =>
      cases hrun
      exact hs
  | append_singleton past e ih =>
      obtain ⟨mid, hmid, hlast⟩ := run_concat_eq_some.mp hrun
      exact hstep mid e s' (ih hmid) hlast

/-- An invariant of the events so far and the state they lead to. -/
theorem run_history_inv (Inv : List E → S → Prop) {s : S} (hnil : Inv [] s)
    (hstep : ∀ past mid e s', run step s past = some mid → Inv past mid →
      step mid e = some s' → Inv (past ++ [e]) s')
    {events : List E} {s' : S} (hrun : run step s events = some s') : Inv events s' := by
  induction events using List.reverseRecOn generalizing s' with
  | nil =>
      cases hrun
      exact hnil
  | append_singleton past e ih =>
      obtain ⟨mid, hmid, hlast⟩ := run_concat_eq_some.mp hrun
      exact hstep past mid e s' hmid (ih hmid) hlast

/-- Every step of a run can be seen to be good by taking it. -/
def checkSteps (Good : S → E → Prop) [∀ s e, Decidable (Good s e)] (step : S → E → Option S) :
    S → List E → Bool
  | _, [] => true
  | s, e :: events =>
      match step s e with
      | none => true
      | some s' => decide (Good s e) && checkSteps Good step s' events

theorem eachStep_of_check {Good : S → E → Prop} [∀ s e, Decidable (Good s e)] {s : S}
    {events : List E} (hcheck : checkSteps Good step s events = true) :
    EachStep step Good s events := by
  induction events generalizing s with
  | nil =>
      intro past e hpast
      simp at hpast
  | cons e₀ events ih =>
      intro past e hpast mid hmid hpossible
      rw [checkSteps] at hcheck
      cases past with
      | nil =>
          obtain ⟨rfl, -⟩ : e = e₀ ∧ True := by simpa using hpast
          cases hmid
          cases hstep : step s e with
          | none => exact absurd hstep hpossible
          | some s' =>
              rw [hstep] at hcheck
              simp only [Bool.and_eq_true, decide_eq_true_eq] at hcheck
              exact hcheck.1
      | cons e₁ past =>
          obtain ⟨rfl, hrest⟩ := List.cons_prefix_cons.mp hpast
          cases hstep : step s e₁ with
          | none =>
              rw [run, List.foldlM_cons, hstep] at hmid
              cases hmid
          | some s' =>
              rw [hstep] at hcheck
              simp only [Bool.and_eq_true, decide_eq_true_eq] at hcheck
              rw [run, List.foldlM_cons, hstep] at hmid
              exact ih hcheck.2 past e hrest mid hmid hpossible

/-- An invariant of the good steps holds where a run of good steps ends. -/
theorem run_eachStep_inv {Good : S → E → Prop} {Inv : S → Prop}
    (hstep : ∀ s e s', Inv s → Good s e → step s e = some s' → Inv s') {s s' : S}
    {events : List E} (hs : Inv s) (hgood : EachStep step Good s events)
    (hrun : run step s events = some s') : Inv s' := by
  have hkept : EachStep step Good s events → Inv s' := by
    refine run_history_inv (fun past mid ↦ EachStep step Good s past → Inv mid) (fun _ ↦ hs) ?_ hrun
    intro past mid e s'' hmid ih hlast heach
    have hmidInv : Inv mid := by
      apply ih
      intro earlier e' hearlier
      exact heach earlier e' (hearlier.trans (List.prefix_append past [e]))
    exact hstep mid e s'' hmidInv
      (heach past e (List.prefix_refl _) mid hmid (by simp [hlast])) hlast
  exact hkept hgood

/-- If, under an invariant, a step keeps `P` exactly when it is good, then `P` holds
all along a run exactly when all its steps are good. -/
theorem always_iff_eachStep {Inv P : S → Prop} {Good : S → E → Prop}
    (hstep : ∀ s e s', Inv s → step s e = some s' → Inv s')
    (hiff : ∀ s e s', Inv s → P s → step s e = some s' → (P s' ↔ Good s e))
    {s : S} (hs : Inv s) (hP : P s) (events : List E) :
    Always step P s events ↔ EachStep step Good s events := by
  constructor
  · intro halways past e hpast mid hmid hpossible
    obtain ⟨s'', hlast⟩ := Option.ne_none_iff_exists'.mp hpossible
    have hbefore : P mid := by
      exact halways past ((List.prefix_append past [e]).trans hpast) mid hmid
    have hafter : P s'' := by
      exact halways (past ++ [e]) hpast s'' (run_concat_eq_some.mpr ⟨mid, hmid, hlast⟩)
    exact (hiff mid e s'' (run_inv hstep hs hmid) hbefore hlast).mp hafter
  · intro heach past hpast
    induction past using List.reverseRecOn with
    | nil =>
        intro s' hrun
        cases hrun
        exact hP
    | append_singleton past e ih =>
        intro s'' hrun
        obtain ⟨mid, hmid, hlast⟩ := run_concat_eq_some.mp hrun
        have hbefore : P mid := by
          exact ih ((List.prefix_append past [e]).trans hpast) mid hmid
        have hgood : Good mid e := by
          exact heach past e hpast mid hmid (by simp [hlast])
        exact (hiff mid e s'' (run_inv hstep hs hmid) hbefore hlast).mpr hgood

/-- There is only one way to cut a list at the last of its elements that count. -/
theorem last_counted_unique (counts : E → Bool) {past past' rest rest' : List E} {e e' : E}
    (he : counts e = true) (he' : counts e' = true) (hrest : ∀ x ∈ rest, counts x = false)
    (hrest' : ∀ x ∈ rest', counts x = false) (h : past ++ e :: rest = past' ++ e' :: rest') :
    past = past' ∧ e = e' := by
  rcases List.append_eq_append_iff.mp h with ⟨between, rfl, hcut⟩ | ⟨between, rfl, hcut⟩
  · cases between with
    | nil => exact ⟨(List.append_nil past).symm, (List.cons.inj hcut).1⟩
    | cons x between =>
        have hlater : e' ∈ rest := by
          rw [(List.cons.inj hcut).2]
          exact List.mem_append_right between List.mem_cons_self
        simp [hrest e' hlater] at he'
  · cases between with
    | nil => exact ⟨List.append_nil past', (List.cons.inj hcut).1.symm⟩
    | cons x between =>
        have hlater : e ∈ rest' := by
          rw [(List.cons.inj hcut).2]
          exact List.mem_append_right between List.mem_cons_self
        simp [hrest' e hlater] at he

/-! ## How long a run is -/

/-- The steps of a run that count. -/
def counted (counts : S → E → Bool) (step : S → E → Option S) : S → List E → ℕ
  | _, [] => 0
  | s, e :: events =>
      (if counts s e then 1 else 0) +
        match step s e with
        | none => 0
        | some s' => counted counts step s' events

/-- Where a counted step uses up one of what is left and only `refills` add to it, no run
counts more steps than these give. -/
theorem counted_le {counts : S → E → Bool} {refills : E → Bool} {amount : ℕ}
    {Left : ℕ → S → Prop}
    (hstep : ∀ n s e s', Left n s → step s e = some s' →
      ∃ n', Left n' s' ∧
        (if counts s e then 1 else 0) + n' ≤ n + if refills e then amount else 0)
    {n : ℕ} {s s' : S} {events : List E} (hs : Left n s) (hrun : run step s events = some s') :
    ∃ n', Left n' s' ∧
      counted counts step s events + n' ≤ n + amount * events.countP refills := by
  induction events generalizing n s with
  | nil =>
      cases hrun
      exact ⟨n, hs, by simp [counted]⟩
  | cons e events ih =>
      rw [run, List.foldlM_cons] at hrun
      obtain ⟨mid, hfirst, hrest⟩ := Option.bind_eq_some_iff.mp hrun
      obtain ⟨m, hm, hcount⟩ := hstep n s e mid hs hfirst
      obtain ⟨n', hn', hcount'⟩ := ih hm hrest
      have hrefill : amount * (if refills e then 1 else 0) = if refills e then amount else 0 := by
        split
        · exact Nat.mul_one amount
        · exact Nat.mul_zero amount
      refine ⟨n', hn', ?_⟩
      simp only [counted, hfirst, List.countP_cons, Nat.mul_add, hrefill]
      omega

end EventRun
