import CurrencyConverter.Frontend.DateEncoding
import CurrencyConverter.Frontend.DisplayedResult
import CurrencyConverter.Grpc.Provenance

/-!
# A browser beside the server

The component's calls are requests to the server, each served by a thread of its own, and
an answer can only arrive once the thread has responded.  A failure may arrive at any time,
as the connection may be lost.  The server meanwhile serves whoever else there is.
-/

namespace CurrencyConverter

open AtomicProgram (requestOf)

variable {D : Type}

/-- The two calls of a submission, by the threads that serve them. -/
structure Calls (D : Type) where
  submission : Submission D
  convert : ℕ
  getHistory : ℕ

/-- The component in its tab, with the threads of its lookups and all calls it has made,
the latest first. -/
structure Tab (D : Type) where
  session : Session D
  listCurrencies : ℕ
  getConstraints : ℕ
  calls : List (Calls D)

/-- The selectors offer the codes of the list and nothing else. -/
def Edit.Offered (currencies : List CurrencyInfo) : Edit D → Prop
  | .sourceCurrency code => ∃ info ∈ currencies, info.code = code
  | .targetCurrency code => ∃ info ∈ currencies, info.code = code
  | _ => True

namespace Tab

/-- The event may occur, with what the server has responded so far. -/
inductive Occurs (log : Log D) (tab : Tab D) : Event D → Prop
  | lookupsLoaded {infos : List CurrencyInfo} {bounds : ConstraintsResponse D}
      (hlist : .responded tab.listCurrencies (.ok (.listCurrencies infos)) ∈ log)
      (hbounds : .responded tab.getConstraints (.ok (.getConstraints bounds)) ∈ log) :
      Occurs log tab (.lookupsLoaded infos bounds)
  | lookupsFailed (err : ClientError) : Occurs log tab (.lookupsFailed err)
  | edit {change : Edit D} (hoffered : change.Offered tab.session.currencies) :
      Occurs log tab (.edit change)
  | submit : Occurs log tab .submit
  | succeed {calls : Calls D} {rest : List (Calls D)} {convertResponse : ConvertResponse D}
      {historyResponse : HistoryResponse D} (hcalls : tab.calls = calls :: rest)
      (hconvert : .responded calls.convert (.ok (.convert convertResponse)) ∈ log)
      (hhistory : .responded calls.getHistory (.ok (.getHistory historyResponse)) ∈ log) :
      Occurs log tab (.succeed convertResponse historyResponse)
  | fail (err : ClientError) : Occurs log tab (.fail err)

variable [Double D]

/-- The requests that the event sends, the latest first. -/
def requests (tab : Tab D) : Event D → List (Request D)
  | .submit =>
      match tab.session.submission with
      | some submission => [.getHistory submission.getHistory, .convert submission.convert]
      | none => []
  | _ => []

/-- The calls after the event, where the next thread of the server is `n`. -/
def callsAfter (tab : Tab D) (n : ℕ) : Event D → List (Calls D)
  | .submit =>
      match tab.session.submission with
      | some submission => ⟨submission, n, n + 1⟩ :: tab.calls
      | none => tab.calls
  | _ => tab.calls

end Tab

/-- The runs of a server with given limits beside one tab; `none` before it is opened. -/
inductive Reaches [Double D] (limits : Limits) : Schedule D → Option (Tab D) → Prop
  | nobody : Reaches limits [] none
  | server {schedule : Schedule D} {tab : Option (Tab D)}
      (choice : AtomicProgram.Choice (Request D) (Tick D) Server.Sweep)
      (h : Reaches limits schedule tab) : Reaches limits (choice :: schedule) tab
  | opened {schedule : Schedule D} (h : Reaches limits schedule none) :
      Reaches limits (.start .getConstraints :: .start .listCurrencies :: schedule)
        (some ⟨Session.init, (limits.run schedule).threads.length,
          (limits.run schedule).threads.length + 1, []⟩)
  | event {schedule : Schedule D} {tab : Tab D} {e : Event D} {session : Session D}
      (h : Reaches limits schedule (some tab)) (hoccurs : tab.Occurs (limits.run schedule).log e)
      (hstep : tab.session.step e = some session) :
      Reaches limits ((tab.requests e).map .start ++ schedule)
        (some { tab with
          session := session
          calls := tab.callsAfter (limits.run schedule).threads.length e })

/-! ## What links the tab to the server -/

/-- What a submission takes from the form passes the form's own checks. -/
theorem Conversion.of_submission [Double D] {c : Conversion D} {submission : Submission D}
    (h : c.submission = some submission) :
    (c.form.sourceCurrency = submission.sourceCurrency ∧ submission.sourceCurrency ≠ []) ∧
      (c.form.targetCurrency = submission.targetCurrency ∧ submission.targetCurrency ≠ []) ∧
      ∀ bounds, c.constraints = some bounds →
        ¬ submission.amount < bounds.minAmount ∧ ¬ bounds.maxAmount < submission.amount := by
  unfold Conversion.submission at h
  split at h
  · cases h
  · next hvalid =>
      split at h
      · next amount startDate endDate hamount _ _ =>
          cases h
          rw [Conversion.invalid] at hvalid
          simp only [Bool.or_eq_true, not_or, List.isEmpty_iff] at hvalid
          refine ⟨⟨rfl, hvalid.1.1.1.1⟩, ⟨rfl, hvalid.1.1.1.2⟩, ?_⟩
          intro bounds hbounds
          have hin := hvalid.1.1.2
          rw [Conversion.amountInvalid, hamount, hbounds] at hin
          simpa using hin
      · cases h

/-- A submission as the form lets it out: its codes are of one list and its other fields
within the bounds, all of which were received in `told`. -/
structure Submission.FitsIn (submission : Submission D) (told : Log D)
    (bounds : ConstraintsResponse D) [Double D] : Prop where
  codes : ∃ i infos, .responded i (.ok (.listCurrencies infos)) ∈ told ∧
    (∃ info ∈ infos, info.code = submission.sourceCurrency) ∧
      ∃ info ∈ infos, info.code = submission.targetCurrency
  advertised : ∃ i, .responded i (.ok (.getConstraints bounds)) ∈ told
  amount : ¬ submission.amount < bounds.minAmount ∧ ¬ bounds.maxAmount < submission.amount
  dates : ∀ first last, fromDateInput bounds.minDate = .day first →
    fromDateInput bounds.maxDate = .day last → ∃ a b,
      submission.startDate = toDateInput (.day a) ∧ submission.endDate = toDateInput (.day b) ∧
        first.Between last a ∧ first.Between last b

namespace Tab

variable [Double D]

/-- The calls were sent, for a submission that fitted what the tab had been told. -/
def Sent (log : Log D) (calls : Calls D) : Prop :=
  ∃ told bounds, .started calls.getHistory (.getHistory calls.submission.getHistory) ::
    .started calls.convert (.convert calls.submission.convert) :: told <:+ log ∧
      calls.submission.FitsIn told bounds

/-- Nothing was chosen yet, or a code of the list. -/
def Chosen (infos : List CurrencyInfo) (code : Str) : Prop :=
  code = [] ∨ ∃ info ∈ infos, info.code = code

/-- The threads `i` and `j` of the lookups brought the list and the bounds that the
component has. -/
structure Heard (log : Log D) (i j : ℕ) (infos : List CurrencyInfo)
    (constraints : Option (ConstraintsResponse D)) (minDate maxDate : Option Date)
    (bounds : ConstraintsResponse D) : Prop where
  list : .responded i (.ok (.listCurrencies infos)) ∈ log
  advertised : .responded j (.ok (.getConstraints bounds)) ∈ log
  constraints : constraints = some bounds
  minDate : minDate = some (fromDateInput bounds.minDate)
  maxDate : maxDate = some (fromDateInput bounds.maxDate)

/-- The delivery is of the submission of the calls, and their threads responded what it
brought. -/
structure Received (log : Log D) (delivery : Delivery D) (calls : Calls D) : Prop where
  submission : delivery.submission = calls.submission
  convert : .responded calls.convert (.ok (.convert delivery.convertResponse)) ∈ log
  getHistory : .responded calls.getHistory (.ok (.getHistory delivery.historyResponse)) ∈ log

structure Linked (log : Log D) (tab : Tab D) : Prop where
  loading : tab.session.loadingLookups = true → tab.session.currencies = []
  heard : tab.session.currencies = [] ∨ ∃ bounds, Heard log tab.listCurrencies tab.getConstraints
    tab.session.currencies tab.session.constraints tab.session.minDate tab.session.maxDate bounds
  source : Chosen tab.session.currencies tab.session.form.sourceCurrency
  target : Chosen tab.session.currencies tab.session.form.targetCurrency
  sent : ∀ calls ∈ tab.calls, Sent log calls
  pending : ∀ submission, tab.session.pending = some submission →
    ∃ calls rest, tab.calls = calls :: rest ∧ calls.submission = submission
  received : ∀ delivery, tab.session.delivered = some delivery →
    ∃ calls ∈ tab.calls, Received log delivery calls

variable {log log' : Log D} {tab : Tab D}

theorem Chosen.eq_nil {code : Str} (h : Chosen [] code) : code = [] := by
  refine h.resolve_right ?_
  rintro ⟨info, hinfo, -⟩
  cases hinfo

theorem Sent.mono {calls : Calls D} (h : Sent log calls) (hs : log <:+ log') : Sent log' calls := by
  obtain ⟨told, bounds, hstarted, hfits⟩ := h
  exact ⟨told, bounds, hstarted.trans hs, hfits⟩

theorem Linked.mono (h : tab.Linked log) (hs : log <:+ log') : tab.Linked log' where
  loading := h.loading
  heard := by
    refine h.heard.imp_right ?_
    rintro ⟨bounds, hheard⟩
    exact ⟨bounds, { hheard with
      list := hs.mem hheard.list
      advertised := hs.mem hheard.advertised }⟩
  source := h.source
  target := h.target
  sent := fun calls hcalls ↦ (h.sent calls hcalls).mono hs
  pending := h.pending
  received := by
    intro delivery hdelivered
    obtain ⟨calls, hcalls, hreceived⟩ := h.received delivery hdelivered
    exact ⟨calls, hcalls, hreceived.submission, hs.mem hreceived.convert,
      hs.mem hreceived.getHistory⟩

/-- A submission fits what the tab has been told. -/
theorem Linked.fitsIn (h : tab.Linked log) {submission : Submission D}
    (hsubmission : tab.session.submission = some submission) :
    ∃ bounds, submission.FitsIn log bounds := by
  obtain ⟨⟨hsource, hsource_ne⟩, ⟨htarget, htarget_ne⟩, hamount⟩ :=
    Conversion.of_submission hsubmission
  have hsourceListed : ∃ info ∈ tab.session.currencies, info.code = submission.sourceCurrency := by
    have := h.source
    rw [hsource] at this
    exact this.resolve_left hsource_ne
  have htargetListed : ∃ info ∈ tab.session.currencies, info.code = submission.targetCurrency := by
    have := h.target
    rw [htarget] at this
    exact this.resolve_left htarget_ne
  have hlisted : tab.session.currencies ≠ [] := by
    intro hnil
    obtain ⟨info, hinfo, -⟩ := hsourceListed
    rw [hnil] at hinfo
    cases hinfo
  obtain ⟨bounds, hheard⟩ := h.heard.resolve_left hlisted
  refine ⟨bounds, ⟨_, _, hheard.list, hsourceListed, htargetListed⟩, ⟨_, hheard.advertised⟩,
    hamount bounds hheard.constraints, ?_⟩
  intro first last hfirst hlast
  have hmin := hheard.minDate
  have hmax := hheard.maxDate
  rw [hfirst] at hmin
  rw [hlast] at hmax
  obtain ⟨hstartValid, hendValid, startDate, endDate, hstart, hend, hwriteStart, hwriteEnd⟩ :=
    submission_eq_some hsubmission
  obtain ⟨a, ha, habetween⟩ := between_of_valid hmin hmax hstartValid
  obtain ⟨b, hb, hbbetween⟩ := between_of_valid hmin hmax hendValid
  cases hstart.symm.trans ha
  cases hend.symm.trans hb
  exact ⟨a, b, hwriteStart, hwriteEnd, habetween, hbbetween⟩

theorem linked_opened (i j : ℕ) : Linked log (⟨Session.init, i, j, []⟩ : Tab D) where
  loading := fun _ ↦ rfl
  heard := .inl rfl
  source := .inl rfl
  target := .inl rfl
  sent := nofun
  pending := nofun
  received := nofun

section Events

variable (h : tab.Linked log)

include h

theorem Linked.lookupsLoaded {infos : List CurrencyInfo} {bounds : ConstraintsResponse D}
    (hloading : tab.session.loadingLookups = true)
    (hlist : .responded tab.listCurrencies (.ok (.listCurrencies infos)) ∈ log)
    (hbounds : .responded tab.getConstraints (.ok (.getConstraints bounds)) ∈ log) :
    Linked log { tab with session := { tab.session with
      toConversion := tab.session.toConversion.lookupsLoaded infos bounds } } := by
  have hnil := h.loading hloading
  refine ⟨nofun, .inr ⟨bounds, hlist, hbounds, rfl, rfl, rfl⟩, ?_, ?_, h.sent, h.pending,
    h.received⟩
  · have hsource := h.source
    rw [hnil] at hsource
    exact .inl hsource.eq_nil
  · have htarget := h.target
    rw [hnil] at htarget
    exact .inl htarget.eq_nil

theorem Linked.lookupsFailed (err : ClientError) :
    Linked log { tab with session := { tab.session with
      toConversion := tab.session.toConversion.lookupsFailed err } } := by
  exact ⟨nofun, h.heard, h.source, h.target, h.sent, h.pending, h.received⟩

theorem Linked.edit {change : Edit D} (hoffered : change.Offered tab.session.currencies) :
    Linked log { tab with session := { tab.session with
      form := change.apply tab.session.form } } := by
  refine ⟨h.loading, h.heard, ?_, ?_, h.sent, h.pending, h.received⟩
  · cases change with
    | sourceCurrency code => exact .inr hoffered
    | _ => exact h.source
  · cases change with
    | targetCurrency code => exact .inr hoffered
    | _ => exact h.target

/-- The new calls are at the head, and nothing is displayed any more. -/
theorem Linked.submitted {submission : Submission D}
    (hsubmission : tab.session.submission = some submission) (n : ℕ) :
    Linked (.started (n + 1) (.getHistory submission.getHistory) ::
        .started n (.convert submission.convert) :: log)
      { tab with
        session := ⟨tab.session.toConversion.submitted, some submission, none⟩
        calls := ⟨submission, n, n + 1⟩ :: tab.calls } := by
  have hs : log <:+ .started (n + 1) (.getHistory submission.getHistory) ::
      .started n (.convert submission.convert) :: log :=
    (List.suffix_cons _ _).trans (List.suffix_cons _ _)
  obtain ⟨bounds, hfits⟩ := h.fitsIn hsubmission
  refine ⟨h.loading, (h.mono hs).heard, h.source, h.target, ?_, ?_, nofun⟩
  · intro calls hcalls
    rcases List.mem_cons.mp hcalls with rfl | hcalls
    · exact ⟨log, bounds, List.suffix_refl _, hfits⟩
    · exact (h.sent calls hcalls).mono hs
  · intro pending hpending
    cases hpending
    exact ⟨_, _, rfl, rfl⟩

theorem Linked.succeeded {submission : Submission D}
    (hpending : tab.session.pending = some submission) {calls : Calls D} {rest : List (Calls D)}
    {r : ConvertResponse D} {history : HistoryResponse D} (hcalls : tab.calls = calls :: rest)
    (hconvert : .responded calls.convert (.ok (.convert r)) ∈ log)
    (hhistory : .responded calls.getHistory (.ok (.getHistory history)) ∈ log) :
    Linked log { tab with session := ⟨tab.session.toConversion.succeeded r history, none,
      some ⟨submission, r, history⟩⟩ } := by
  obtain ⟨calls', rest', hcalls', hsubmission⟩ := h.pending submission hpending
  cases hcalls.symm.trans hcalls'
  refine ⟨h.loading, h.heard, h.source, h.target, h.sent, nofun, ?_⟩
  intro delivery hdelivered
  cases hdelivered
  have hmem : calls ∈ tab.calls := by
    rw [hcalls]
    exact List.mem_cons_self
  exact ⟨calls, hmem, hsubmission.symm, hconvert, hhistory⟩

theorem Linked.failed (err : ClientError) :
    Linked log { tab with session := { tab.session with
      toConversion := tab.session.toConversion.failed err
      pending := none } } := by
  exact ⟨h.loading, h.heard, h.source, h.target, h.sent, nofun, h.received⟩

end Events

end Tab

/-- Two requests in a row get neighbouring threads. -/
theorem log_of_starts [Double D] (limits : Limits) (schedule : Schedule D) (q q' : Request D) :
    (limits.run (.start q' :: .start q :: schedule)).log =
      .started ((limits.run schedule).threads.length + 1) q' ::
        .started (limits.run schedule).threads.length q :: (limits.run schedule).log := by
  have hlength : (limits.run (.start q :: schedule)).threads.length =
      (limits.run schedule).threads.length + 1 := List.length_append
  rw [← hlength]
  rfl

/-- In every run of the server beside the tab, the tab is linked to it. -/
theorem linked_of_reaches [Double D] {limits : Limits} {schedule : Schedule D}
    {state : Option (Tab D)} (h : Reaches limits schedule state) :
    ∀ tab, state = some tab → tab.Linked (limits.run schedule).log := by
  induction h with
  | nobody =>
      intro tab htab
      cases htab
  | server choice _ ih =>
      intro tab htab
      exact (ih tab htab).mono (AtomicProgram.Machine.log_suffix_step _ _ choice)
  | opened _ _ =>
      rintro tab ⟨rfl⟩
      exact Tab.linked_opened _ _
  | @event schedule tab e session _ hoccurs hstep ih =>
      have h := ih tab rfl
      rintro tab' ⟨rfl⟩
      cases hoccurs with
      | lookupsLoaded hlist hbounds =>
          obtain ⟨hloading, rfl⟩ := Session.lookupsLoaded_of_step hstep
          exact h.lookupsLoaded hloading hlist hbounds
      | lookupsFailed err =>
          obtain ⟨-, rfl⟩ := Session.lookupsFailed_of_step hstep
          exact h.lookupsFailed err
      | edit hoffered =>
          obtain ⟨-, rfl⟩ := Session.edited_of_step hstep
          exact h.edit hoffered
      | submit =>
          obtain ⟨-, -, ⟨hnone, rfl⟩ | ⟨submission, hsome, rfl⟩⟩ :=
            Session.submitted_of_step hstep
          · simp only [Tab.requests, Tab.callsAfter, hnone]
            exact h
          · simp only [Tab.requests, Tab.callsAfter, hsome]
            have hlinked := h.submitted hsome (limits.run schedule).threads.length
            rw [← log_of_starts] at hlinked
            exact hlinked
      | succeed hcalls hconvert hhistory =>
          obtain ⟨submission, hpending, rfl⟩ := Session.succeeded_of_step hstep
          exact h.succeeded hpending hcalls hconvert hhistory
      | fail err =>
          obtain rfl := Session.failed_of_step hstep
          exact h.failed err

/-- The component in the tab keeps its own invariant. -/
theorem sound_of_reaches [Double D] {limits : Limits} {schedule : Schedule D}
    {state : Option (Tab D)} (h : Reaches limits schedule state) :
    ∀ tab, state = some tab → tab.session.Sound := by
  induction h with
  | nobody =>
      intro tab htab
      cases htab
  | server _ _ ih => exact ih
  | opened _ _ =>
      rintro tab ⟨rfl⟩
      exact Session.sound_init
  | event _ _ hstep ih =>
      rintro tab' ⟨rfl⟩
      exact (ih _ rfl).step hstep

end CurrencyConverter
