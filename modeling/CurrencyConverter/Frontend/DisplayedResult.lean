import CurrencyConverter.Frontend.Conversion

/-!
# The displayed result and its request

The result and the points come from one submission, but the labels beside them are
those of the live form.  A step keeps the two together exactly when it leaves the
currencies of the form as the displayed result, or the one it brings, has them.  The
steps are compared with the record of the last delivery, and that with the events.
-/

namespace CurrencyConverter

variable {D : Type}

def Form.currencies (form : Form D) : Str × Str := (form.sourceCurrency, form.targetCurrency)

def Submission.currencies (submission : Submission D) : Str × Str :=
  (submission.sourceCurrency, submission.targetCurrency)

/-- A block is only there where the component is rendered with a result. -/
theorem Conversion.of_resultBlock {c : Conversion D} {block : ResultBlock D}
    (h : c.resultBlock = some block) : c.rendered = true ∧ c.result ≠ none := by
  unfold Conversion.resultBlock at h
  split at h
  · next r hrendered hresult => exact ⟨hrendered, by simp [hresult]⟩
  · cases h

theorem isSubmit_of_edits {edits : List (Event D)}
    (hedits : ∀ e ∈ edits, ∃ change, e = .edit change) : ∀ e ∈ edits, e.isSubmit = false := by
  intro e he
  obtain ⟨change, rfl⟩ := hedits e he
  rfl

section Requested

variable [Double D]

theorem SubmittedIn.unique {events : List (Event D)} {submission submission' : Submission D}
    (h : SubmittedIn events submission) (h' : SubmittedIn events submission') :
    submission = submission' := by
  obtain ⟨past, edits, s, rfl, hrun, hsubmission, hedits⟩ := h
  obtain ⟨past', edits', s', hsame, hrun', hsubmission', hedits'⟩ := h'
  obtain ⟨rfl, -⟩ := EventRun.last_counted_unique Event.isSubmit rfl rfl
    (isSubmit_of_edits hedits) (isSubmit_of_edits hedits') hsame
  obtain rfl := Option.some.inj (hrun.symm.trans hrun')
  exact Option.some.inj (hsubmission.symm.trans hsubmission')

theorem DeliveredIn.unique {events : List (Event D)} {delivery delivery' : Delivery D}
    (h : DeliveredIn events delivery) (h' : DeliveredIn events delivery') :
    delivery = delivery' := by
  obtain ⟨past, rest, rfl, hsubmitted, hrest⟩ := h
  obtain ⟨past', rest', hsame, hsubmitted', hrest'⟩ := h'
  obtain ⟨rfl, hresponses⟩ :=
    EventRun.last_counted_unique Event.isSucceed rfl rfl hrest hrest' hsame
  obtain ⟨hconvert, hhistory⟩ := Event.succeed.inj hresponses
  exact Delivery.ext (hsubmitted.unique hsubmitted') hconvert hhistory

theorem SubmittedIn.edit {events : List (Event D)} {submission : Submission D}
    (h : SubmittedIn events submission) (change : Edit D) :
    SubmittedIn (events ++ [.edit change]) submission := by
  obtain ⟨past, edits, s, rfl, hrun, hsubmission, hedits⟩ := h
  refine ⟨past, edits ++ [.edit change], s, by simp, hrun, hsubmission, ?_⟩
  intro e he
  rcases List.mem_append.mp he with he | he
  · exact hedits e he
  · exact ⟨change, List.mem_singleton.mp he⟩

theorem DeliveredIn.concat {events : List (Event D)} {delivery : Delivery D}
    (h : DeliveredIn events delivery) {e : Event D} (he : e.isSucceed = false) :
    DeliveredIn (events ++ [e]) delivery := by
  obtain ⟨past, rest, rfl, hsubmitted, hrest⟩ := h
  refine ⟨past, rest ++ [e], by simp, hsubmitted, ?_⟩
  intro x hx
  rcases List.mem_append.mp hx with hx | hx
  · exact hrest x hx
  · rwa [List.mem_singleton.mp hx]

end Requested

namespace Session

/-- The result and the points are those of the delivery. -/
structure Holds (s : Session D) (delivery : Delivery D) : Prop where
  delivered : s.delivered = some delivery
  result : s.result = some delivery.convertResponse
  historyPoints : s.historyPoints = delivery.historyResponse.points

/-- What every reachable session satisfies: only a rendered form submits, once until the calls
end, and a result and its points were delivered together. -/
structure Sound (s : Session D) : Prop where
  rendered_of_pending : s.pending ≠ none → s.rendered = true
  submitting_of_pending : s.pending ≠ none → s.submitting = true
  rendered_of_result : s.result ≠ none → s.rendered = true
  holds_of_result : s.result ≠ none → ∃ delivery, s.Holds delivery

/-- What the result block shows is what is kept as delivered. -/
def MatchesDelivered (s : Session D) : Prop :=
  ∀ block, s.resultBlock = some block → ∃ delivery, s.delivered = some delivery ∧
    delivery.Shown block

/-- An edit beside a displayed result leaves both currencies as they are, and an
answer arrives while the form has the currencies that were submitted. -/
def KeepsCurrencies (s : Session D) : Event D → Prop
  | .edit change =>
      s.result ≠ none → (change.apply s.form).currencies = s.form.currencies
  | .succeed _ _ =>
      ∀ submission, s.pending = some submission → s.form.currencies = submission.currencies
  | _ => True

theorem rendered_of_loading {s : Session D} (hloading : s.loadingLookups = true) :
    s.rendered = false := by
  simp [Conversion.rendered, hloading]

/-- Nothing is pending or displayed while the lookups load. -/
theorem Sound.empty_of_loading {s : Session D} (hs : Sound s)
    (hloading : s.loadingLookups = true) : s.pending = none ∧ s.result = none := by
  have hhidden := rendered_of_loading hloading
  constructor
  · by_contra h
    simp [hs.rendered_of_pending h] at hhidden
  · by_contra h
    simp [hs.rendered_of_result h] at hhidden

/-- The invariant where nothing is pending and nothing displayed. -/
theorem Sound.of_empty {s : Session D} (hpending : s.pending = none) (hresult : s.result = none) :
    Sound s where
  rendered_of_pending h := absurd hpending h
  submitting_of_pending h := absurd hpending h
  rendered_of_result h := absurd hresult h
  holds_of_result h := absurd hresult h

section

variable [Double D]

theorem sound_init : Sound (init : Session D) := .of_empty rfl rfl

section Steps

variable {s s' : Session D}

theorem lookupsLoaded_of_step {currencies : List CurrencyInfo}
    {constraints : ConstraintsResponse D}
    (h : s.step (.lookupsLoaded currencies constraints) = some s') : s.loadingLookups = true ∧
      s' = { s with toConversion := s.toConversion.lookupsLoaded currencies constraints } := by
  simp only [step] at h
  split at h
  · next hloading => exact ⟨hloading, (Option.some.inj h).symm⟩
  · cases h

theorem lookupsFailed_of_step {err : ClientError}
    (h : s.step (.lookupsFailed err) = some s') : s.loadingLookups = true ∧
      s' = { s with toConversion := s.toConversion.lookupsFailed err } := by
  simp only [step] at h
  split at h
  · next hloading => exact ⟨hloading, (Option.some.inj h).symm⟩
  · cases h

theorem edited_of_step {change : Edit D} (h : s.step (.edit change) = some s') :
    s.rendered = true ∧ s' = { s with form := change.apply s.form } := by
  simp only [step] at h
  split at h
  · next hrendered => exact ⟨hrendered, (Option.some.inj h).symm⟩
  · cases h

theorem submitted_of_step (h : s.step .submit = some s') : s.rendered = true ∧
    s.submitting = false ∧ (s.submission = none ∧ s' = s ∨
      ∃ submission, s.submission = some submission ∧
        s' = ⟨s.toConversion.submitted, some submission, none⟩) := by
  simp only [step] at h
  split at h
  · next hready =>
      simp only [Bool.and_eq_true, Bool.not_eq_true'] at hready
      refine ⟨hready.1, hready.2, ?_⟩
      split at h
      · next hnone => exact .inl ⟨hnone, (Option.some.inj h).symm⟩
      · next submission hsome => exact .inr ⟨submission, hsome, (Option.some.inj h).symm⟩
  · cases h

theorem succeeded_of_step {convertResponse : ConvertResponse D}
    {historyResponse : HistoryResponse D}
    (h : s.step (.succeed convertResponse historyResponse) = some s') :
    ∃ submission, s.pending = some submission ∧
      s' = ⟨s.toConversion.succeeded convertResponse historyResponse, none,
        some ⟨submission, convertResponse, historyResponse⟩⟩ := by
  simp only [step] at h
  split at h
  · cases h
  · next submission hpending => exact ⟨submission, hpending, (Option.some.inj h).symm⟩

theorem failed_of_step {err : ClientError} (h : s.step (.fail err) = some s') :
    s' = { s with toConversion := s.toConversion.failed err, pending := none } := by
  simp only [step] at h
  split at h
  · cases h
  · exact (Option.some.inj h).symm

end Steps

theorem Sound.step {s s' : Session D} {e : Event D} (hs : Sound s)
    (hstep : step s e = some s') : Sound s' := by
  cases e with
  | lookupsLoaded currencies constraints =>
      obtain ⟨hloading, rfl⟩ := lookupsLoaded_of_step hstep
      obtain ⟨hpending, hresult⟩ := hs.empty_of_loading hloading
      exact .of_empty hpending hresult
  | lookupsFailed err =>
      obtain ⟨hloading, rfl⟩ := lookupsFailed_of_step hstep
      obtain ⟨hpending, hresult⟩ := hs.empty_of_loading hloading
      exact .of_empty hpending hresult
  | edit change =>
      obtain ⟨hrendered, rfl⟩ := edited_of_step hstep
      refine ⟨fun _ ↦ hrendered, hs.submitting_of_pending, fun _ ↦ hrendered, fun hresult ↦ ?_⟩
      obtain ⟨delivery, hholds⟩ := hs.holds_of_result hresult
      exact ⟨delivery, hholds.delivered, hholds.result, hholds.historyPoints⟩
  | submit =>
      obtain ⟨hrendered, -, ⟨-, rfl⟩ | ⟨submission, -, rfl⟩⟩ := submitted_of_step hstep
      · exact hs
      · exact ⟨fun _ ↦ hrendered, fun _ ↦ rfl, fun h ↦ absurd rfl h, fun h ↦ absurd rfl h⟩
  | succeed convertResponse historyResponse =>
      obtain ⟨submission, hpending, rfl⟩ := succeeded_of_step hstep
      have hrendered : s.rendered = true := hs.rendered_of_pending (by simp [hpending])
      exact ⟨fun _ ↦ hrendered, fun h ↦ absurd rfl h, fun _ ↦ hrendered,
        fun _ ↦ ⟨_, rfl, rfl, rfl⟩⟩
  | fail err =>
      obtain rfl := failed_of_step hstep
      refine ⟨fun h ↦ absurd rfl h, fun h ↦ absurd rfl h, hs.rendered_of_result,
        fun hresult ↦ ?_⟩
      obtain ⟨delivery, hholds⟩ := hs.holds_of_result hresult
      exact ⟨delivery, hholds.delivered, hholds.result, hholds.historyPoints⟩

end

theorem matchesDelivered_of_no_result {s : Session D} (hresult : s.result = none) :
    MatchesDelivered s := by
  intro block hblock
  exact absurd hresult (Conversion.of_resultBlock hblock).2

theorem Holds.resultBlock {s : Session D} {delivery : Delivery D} (h : s.Holds delivery)
    (hrendered : s.rendered = true) :
    s.resultBlock = some ⟨delivery.convertResponse.sourceAmount, s.form.sourceCurrency,
      delivery.convertResponse.convertedAmount, s.form.targetCurrency,
      delivery.convertResponse.exchangeRate, delivery.convertResponse.rateDate,
      delivery.historyResponse.points, s.form.sourceCurrency, s.form.targetCurrency⟩ := by
  simp [Conversion.resultBlock, hrendered, h.result, h.historyPoints]

/-- Once a result is there, it matches its delivery exactly when the form still has
the currencies that it was delivered for. -/
theorem Holds.matchesDelivered_iff {s : Session D} {delivery : Delivery D}
    (hholds : s.Holds delivery) (hrendered : s.rendered = true) :
    MatchesDelivered s ↔ s.form.currencies = delivery.submission.currencies := by
  have hblock := hholds.resultBlock hrendered
  constructor
  · intro hmatches
    obtain ⟨delivery', hdelivered, hshown⟩ := hmatches _ hblock
    obtain rfl : delivery' = delivery := by
      exact Option.some.inj (hdelivered.symm.trans hholds.delivered)
    exact Prod.ext hshown.sourceLabel hshown.targetLabel
  · intro hcurrencies block hblock'
    obtain ⟨hsource, htarget⟩ := Prod.ext_iff.mp hcurrencies
    simp only [Form.currencies, Submission.currencies] at hsource htarget
    obtain rfl := Option.some.inj (hblock'.symm.trans hblock)
    refine ⟨delivery, hholds.delivered, ?_⟩
    constructor
    · rfl
    · rfl
    · rfl
    · rfl
    · rfl
    · exact hsource
    · exact htarget
    · exact hsource
    · exact htarget
    · simp only [ResultBlock.chartData, hsource, htarget]

variable [Double D]

theorem matchesDelivered_step_iff {s s' : Session D} {e : Event D} (hs : Sound s)
    (hmatches : MatchesDelivered s) (hstep : step s e = some s') :
    MatchesDelivered s' ↔ KeepsCurrencies s e := by
  cases e with
  | lookupsLoaded currencies constraints =>
      obtain ⟨hloading, rfl⟩ := lookupsLoaded_of_step hstep
      exact iff_of_true (matchesDelivered_of_no_result (hs.empty_of_loading hloading).2) trivial
  | lookupsFailed err =>
      obtain ⟨hloading, rfl⟩ := lookupsFailed_of_step hstep
      exact iff_of_true (matchesDelivered_of_no_result (hs.empty_of_loading hloading).2) trivial
  | edit change =>
      obtain ⟨hrendered, rfl⟩ := edited_of_step hstep
      by_cases hresult : s.result = none
      · exact iff_of_true (matchesDelivered_of_no_result hresult) fun h ↦ absurd hresult h
      · -- what was delivered is the same before and after the edit
        obtain ⟨delivery, hholds⟩ := hs.holds_of_result hresult
        have hbefore : s.form.currencies = delivery.submission.currencies := by
          exact (hholds.matchesDelivered_iff hrendered).mp hmatches
        have hafter : Holds { s with form := change.apply s.form } delivery :=
          ⟨hholds.delivered, hholds.result, hholds.historyPoints⟩
        rw [hafter.matchesDelivered_iff hrendered]
        change (change.apply s.form).currencies = delivery.submission.currencies ↔ _
        rw [← hbefore]
        exact ⟨fun h _ ↦ h, fun h ↦ h hresult⟩
  | submit =>
      obtain ⟨-, -, ⟨-, rfl⟩ | ⟨submission, -, rfl⟩⟩ := submitted_of_step hstep
      · exact iff_of_true hmatches trivial
      · exact iff_of_true (matchesDelivered_of_no_result rfl) trivial
  | succeed convertResponse historyResponse =>
      obtain ⟨submission, hpending, rfl⟩ := succeeded_of_step hstep
      have hrendered : s.rendered = true := hs.rendered_of_pending (by simp [hpending])
      have hholds : Holds ⟨s.toConversion.succeeded convertResponse historyResponse, none,
          some ⟨submission, convertResponse, historyResponse⟩⟩
            ⟨submission, convertResponse, historyResponse⟩ := ⟨rfl, rfl, rfl⟩
      rw [hholds.matchesDelivered_iff hrendered]
      constructor
      · intro hcurrencies pending hpending'
        obtain rfl := Option.some.inj (hpending'.symm.trans hpending)
        exact hcurrencies
      · intro hkeeps
        exact hkeeps submission hpending
  | fail err =>
      obtain rfl := failed_of_step hstep
      exact iff_of_true hmatches trivial

/-! ### What was delivered -/

/-- What is kept beside the component is true of its events. -/
structure Recorded (events : List (Event D)) (s : Session D) : Prop where
  sound : Sound s
  pending : ∀ submission, s.pending = some submission → SubmittedIn events submission
  delivered : ∀ delivery, s.delivered = some delivery → DeliveredIn events delivery

theorem Recorded.submittedIn {events : List (Event D)} {s s' : Session D} {e : Event D}
    (h : Recorded events s) (hrun : EventRun.run step init events = some s)
    (hstep : step s e = some s') {submission : Submission D}
    (hpending : s'.pending = some submission) : SubmittedIn (events ++ [e]) submission := by
  cases e with
  | lookupsLoaded currencies constraints =>
      obtain ⟨hloading, rfl⟩ := lookupsLoaded_of_step hstep
      cases (h.sound.empty_of_loading hloading).1.symm.trans hpending
  | lookupsFailed err =>
      obtain ⟨hloading, rfl⟩ := lookupsFailed_of_step hstep
      cases (h.sound.empty_of_loading hloading).1.symm.trans hpending
  | edit change =>
      obtain ⟨-, rfl⟩ := edited_of_step hstep
      exact (h.pending submission hpending).edit change
  | submit =>
      obtain ⟨-, hidle, ⟨-, rfl⟩ | ⟨submission', hsubmission, rfl⟩⟩ := submitted_of_step hstep
      · -- with a pair of calls in flight the button is disabled
        have hsubmitting := h.sound.submitting_of_pending (by simp [hpending])
        simp [hidle] at hsubmitting
      · cases hpending
        exact ⟨events, [], s, rfl, hrun, hsubmission, nofun⟩
  | succeed convertResponse historyResponse =>
      obtain ⟨_, -, rfl⟩ := succeeded_of_step hstep
      cases hpending
  | fail err =>
      obtain rfl := failed_of_step hstep
      cases hpending

theorem Recorded.deliveredIn {events : List (Event D)} {s s' : Session D} {e : Event D}
    (h : Recorded events s) (hstep : step s e = some s') {delivery : Delivery D}
    (hdelivered : s'.delivered = some delivery) : DeliveredIn (events ++ [e]) delivery := by
  have hkept : s.delivered = some delivery → e.isSucceed = false →
      DeliveredIn (events ++ [e]) delivery := by
    intro hbefore he
    exact (h.delivered delivery hbefore).concat he
  cases e with
  | lookupsLoaded currencies constraints =>
      obtain ⟨-, rfl⟩ := lookupsLoaded_of_step hstep
      exact hkept hdelivered rfl
  | lookupsFailed err =>
      obtain ⟨-, rfl⟩ := lookupsFailed_of_step hstep
      exact hkept hdelivered rfl
  | edit change =>
      obtain ⟨-, rfl⟩ := edited_of_step hstep
      exact hkept hdelivered rfl
  | submit =>
      obtain ⟨-, -, ⟨-, rfl⟩ | ⟨_, -, rfl⟩⟩ := submitted_of_step hstep
      · exact hkept hdelivered rfl
      · cases hdelivered
  | succeed convertResponse historyResponse =>
      obtain ⟨submission, hpending, rfl⟩ := succeeded_of_step hstep
      cases hdelivered
      exact ⟨events, [], rfl, h.pending submission hpending, nofun⟩
  | fail err =>
      obtain rfl := failed_of_step hstep
      exact hkept hdelivered rfl

/-- In every run what is kept of the calls is what the events brought, and for the submission
that they were made for. -/
theorem recorded_of_run {events : List (Event D)} {s : Session D}
    (hrun : EventRun.run step init events = some s) : Recorded events s := by
  refine EventRun.run_history_inv Recorded ⟨sound_init, nofun, nofun⟩ ?_ hrun
  intro past mid e s' hpast h hstep
  exact ⟨h.sound.step hstep, fun _ ↦ h.submittedIn hpast hstep, fun _ ↦ h.deliveredIn hstep⟩

/-- After the events of a run, to match what they delivered is to match what is kept of it. -/
theorem matchesRequest_iff {events : List (Event D)} {s : Session D}
    (hrun : EventRun.run step init events = some s) :
    MatchesRequest events s ↔ MatchesDelivered s := by
  have hrecorded := recorded_of_run hrun
  constructor
  · intro hmatches block hblock
    obtain ⟨delivery, hdelivered, hshown⟩ := hmatches block hblock
    obtain ⟨kept, hholds⟩ :=
      hrecorded.sound.holds_of_result (Conversion.of_resultBlock hblock).2
    obtain rfl := hdelivered.unique (hrecorded.delivered kept hholds.delivered)
    exact ⟨delivery, hholds.delivered, hshown⟩
  · intro hmatches block hblock
    obtain ⟨delivery, hdelivered, hshown⟩ := hmatches block hblock
    exact ⟨delivery, hrecorded.delivered delivery hdelivered, hshown⟩

end Session

/-- All along a run the displayed result matches its request exactly when each step
keeps the currencies. -/
theorem displayed_result_matches_iff [Double D] (events : List (Event D)) :
    (∀ past, past <+: events → ∀ s, EventRun.run Session.step Session.init past = some s →
        Session.MatchesRequest past s) ↔
      EventRun.EachStep Session.step Session.KeepsCurrencies Session.init events := by
  have hkept : EventRun.Always Session.step Session.MatchesDelivered Session.init events ↔
      EventRun.EachStep Session.step Session.KeepsCurrencies Session.init events := by
    refine EventRun.always_iff_eachStep ?_ ?_ Session.sound_init ?_ events
    · intro s e s' hs hstep
      exact hs.step hstep
    · intro s e s' hs hmatches hstep
      exact Session.matchesDelivered_step_iff hs hmatches hstep
    · exact Session.matchesDelivered_of_no_result rfl
  rw [← hkept]
  constructor
  · intro h past hpast s hrun
    exact (Session.matchesRequest_iff hrun).mp (h past hpast s hrun)
  · intro h past hpast s hrun
    exact (Session.matchesRequest_iff hrun).mpr (h past hpast s hrun)

/-- The user converts dollars to euros and then picks another target. -/
def relabelled : List (Event ℚ) :=
  [.lookupsLoaded [⟨str "USD", str "United States Dollar"⟩, ⟨str "EUR", str "Euro"⟩,
      ⟨str "GBP", str "British Pound"⟩] ⟨0.01, 1000000000, str "1999-01-04", str "2024-03-01"⟩,
    .edit (.sourceCurrency (str "USD")), .edit (.targetCurrency (str "EUR")), .submit,
    .succeed ⟨100, 90, 9 / 10, str "2024-03-01"⟩
      ⟨str "USD", str "EUR", [⟨str "2024-03-01", 9 / 10⟩]⟩,
    .edit (.targetCurrency (str "GBP"))]

theorem euros_displayed_as_pounds :
    ∃ s block delivery, EventRun.run Session.step Session.init relabelled = some s ∧
      s.resultBlock = some block ∧ block.convertedAmount = 90 ∧
      block.targetLabel = str "GBP" ∧ block.chartTargetCurrency = str "GBP" ∧
      DeliveredIn relabelled delivery ∧ delivery.convertResponse.convertedAmount = 90 ∧
      delivery.submission.targetCurrency = str "EUR" ∧ ¬ Session.MatchesRequest relabelled s := by
  obtain ⟨s, block, delivery, hrun, hblock, hamount, hlabel, hchart, hkept, hconverted,
      htarget⟩ :
      ∃ s block delivery, EventRun.run Session.step Session.init relabelled = some s ∧
        s.resultBlock = some block ∧ block.convertedAmount = 90 ∧
        block.targetLabel = str "GBP" ∧ block.chartTargetCurrency = str "GBP" ∧
        s.delivered = some delivery ∧ delivery.convertResponse.convertedAmount = 90 ∧
        delivery.submission.targetCurrency = str "EUR" :=
    ⟨_, _, _, by with_unfolding_all rfl, by with_unfolding_all rfl, rfl, rfl, rfl,
      by with_unfolding_all rfl, rfl, rfl⟩
  have hdelivered := (Session.recorded_of_run hrun).delivered delivery hkept
  refine ⟨s, block, delivery, hrun, hblock, hamount, hlabel, hchart, hdelivered, hconverted,
    htarget, fun hmatches ↦ ?_⟩
  obtain ⟨delivery', hdelivered', hshown⟩ := hmatches block hblock
  obtain rfl := hdelivered.unique hdelivered'
  have hsame := hshown.targetLabel
  rw [hlabel, htarget] at hsame
  exact absurd hsame (by decide)

end CurrencyConverter
