import CurrencyConverter.Frontend.Browser
import CurrencyConverter.Grpc.Advertised
import CurrencyConverter.Grpc.MarketAnswers

/-!
# From the market to the screen

What a tab displays is what the market said to its submission, and a submission is refused
for nothing that the form could have known better.
-/

namespace CurrencyConverter

open AtomicProgram (exists_suffix_of_mem requestOf)

variable {D : Type} [Double D] {limits : Limits} {schedule : Schedule D} {tab : Tab D}

/-- A thread serves the request that it was started for. -/
theorem eq_of_started {i : ℕ} {req req' : Request D} {told l : Log D}
    (hstart : .started i req :: told <:+ (limits.run schedule).log)
    (hs : l <:+ (limits.run schedule).log) (hreq : requestOf i l = some req') : req' = req := by
  have hlegal := legal_log limits schedule
  have hstarted : requestOf i (.started i req :: told) = some req := if_pos rfl
  exact Option.some.inj ((hlegal.requestOf_of_suffix hs hreq).symm.trans
    (hlegal.requestOf_of_suffix hstart hstarted))

/-! ## What is displayed -/

section Displayed

variable {market : Tick D → Market D}

theorem says_of_convert (hmarket : BehindMarket market schedule) {i : ℕ} {r : ConvertRequest D}
    {told : Log D} (hstart : .started i (.convert r) :: told <:+ (limits.run schedule).log)
    {response : ConvertResponse D}
    (hresponse : .responded i (.ok (.convert response)) ∈ (limits.run schedule).log) :
    ∃ before, before <:+ (limits.run schedule).log ∧
      SaysMarket limits market before i (.convert r) (.convert response) := by
  obtain ⟨before, hs⟩ := exists_suffix_of_mem hresponse
  have hbefore := (List.suffix_cons _ _).trans hs
  obtain ⟨req, hreq, r', rate, rfl, hobtained, rfl⟩ :=
    (legal_log limits schedule).result holds_serve hs
  cases eq_of_started hstart hbefore hreq
  exact ⟨before, hbefore, says_convert hmarket hbefore hreq hobtained⟩

theorem says_of_getHistory (hmarket : BehindMarket market schedule) {i : ℕ} {r : HistoryRequest}
    {told : Log D} (hstart : .started i (.getHistory r) :: told <:+ (limits.run schedule).log)
    {response : HistoryResponse D}
    (hresponse : .responded i (.ok (.getHistory response)) ∈ (limits.run schedule).log) :
    ∃ before, before <:+ (limits.run schedule).log ∧ SaysMarket limits market before i
      (.getHistory r) (.getHistory ⟨r.sourceCurrency, r.targetCurrency, response.points⟩) := by
  obtain ⟨before, hs⟩ := exists_suffix_of_mem hresponse
  have hbefore := (List.suffix_cons _ _).trans hs
  obtain ⟨req, hreq, r', range, points, rfl, hrange, hobtained, rfl⟩ :=
    (legal_log limits schedule).result holds_serve hs
  cases eq_of_started hstart hbefore hreq
  exact ⟨before, hbefore, says_getHistory hmarket hbefore hreq hrange hobtained⟩

/-- Whatever the tab displays, its amounts and its points are the market's answers to the
two requests of one submission of this tab. -/
theorem displayed_is_the_market (hreach : Reaches limits schedule (some tab))
    (hmarket : BehindMarket market schedule) {block : ResultBlock D}
    (hblock : tab.session.resultBlock = some block) :
    ∃ calls ∈ tab.calls,
      (∃ delivery, tab.session.delivered = some delivery ∧
        Tab.Received (limits.run schedule).log delivery calls ∧
        delivery.convertResponse =
          ⟨block.sourceAmount, block.convertedAmount, block.exchangeRate, block.rateDate⟩ ∧
        delivery.historyResponse.points = block.points) ∧
      (∃ before, before <:+ (limits.run schedule).log ∧
        SaysMarket limits market before calls.convert (.convert calls.submission.convert)
          (.convert ⟨block.sourceAmount, block.convertedAmount, block.exchangeRate,
            block.rateDate⟩)) ∧
      ∃ before, before <:+ (limits.run schedule).log ∧
        SaysMarket limits market before calls.getHistory (.getHistory calls.submission.getHistory)
          (.getHistory ⟨calls.submission.sourceCurrency, calls.submission.targetCurrency,
            block.points⟩) := by
  have hsound := sound_of_reaches hreach tab rfl
  have hlinked := linked_of_reaches hreach tab rfl
  obtain ⟨hrendered, hresult⟩ := Conversion.of_resultBlock hblock
  obtain ⟨delivery, hholds⟩ := hsound.holds_of_result hresult
  obtain ⟨calls, hcalls, hreceived⟩ := hlinked.received delivery hholds.delivered
  obtain ⟨told, bounds, hstarted, -⟩ := hlinked.sent calls hcalls
  cases hblock.symm.trans (hholds.resultBlock hrendered)
  refine ⟨calls, hcalls, ⟨delivery, hholds.delivered, hreceived, rfl, rfl⟩, ?_, ?_⟩
  · exact says_of_convert hmarket ((List.suffix_cons _ _).trans hstarted) hreceived.convert
  · exact says_of_getHistory hmarket hstarted hreceived.getHistory

end Displayed

/-! ## What is refused -/

def Status.Refuses (status : Status) : Prop :=
  status.code = .invalidArgument ∨ status.code = .notFound

/-- The clock of the server shows days that exist. -/
def ClockOfCalendar (log : Log D) : Prop :=
  ∀ i w today, .acted i w .systemClock today ∈ log → IsCalendarDate today.format

theorem not_refuses_of_complies {c₁ c₂ : Str} (hsteady : Steady (limits.run schedule).log c₁ c₂)
    {i : ℕ} {req : Request D} {told : Log D}
    (hstart : .started i req :: told <:+ (limits.run schedule).log)
    {bounds : ConstraintsResponse D} (htold : Told told c₁ c₂ bounds)
    (hreq : Complies c₁ c₂ bounds req) {status : Status}
    (hout : .responded i (.error status) ∈ (limits.run schedule).log) : ¬ status.Refuses := by
  obtain ⟨l, hl⟩ := exists_suffix_of_mem hout
  have hs := (List.suffix_cons _ _).trans hl
  obtain ⟨req', hreq', -, ex, hrefused, rfl⟩ :=
    (legal_log limits schedule).result holds_serve_explained hl
  cases eq_of_started hstart hs hreq'
  have hnot := hreq.not_refused hsteady hstart htold hs hrefused
  rintro (hcode | hcode)
  · cases ex with
    | invalidArgument what => exact (hnot what).1 rfl
    | _ => cases hcode
  · cases ex with
    | currencyNotFound what => exact (hnot what).2 rfl
    | _ => cases hcode

/-- The days of a submission within the bounds that the server advertised. -/
theorem exists_days {submission : Submission D} {told : Log D} {bounds : ConstraintsResponse D}
    (hfits : submission.FitsIn told bounds) (htold : told <:+ (limits.run schedule).log)
    (hclock : ClockOfCalendar (limits.run schedule).log) : ∃ first last a b,
      Bounds bounds.minDate bounds.maxDate first last ∧
        submission.startDate = toDateInput (.day a) ∧ submission.endDate = toDateInput (.day b) ∧
        first.Between last a ∧ first.Between last b := by
  obtain ⟨i, hresponse⟩ := hfits.advertised
  obtain ⟨before, hs⟩ := exists_suffix_of_mem hresponse
  obtain ⟨w, today, hread, rfl⟩ := clock_of_bounds (hs.trans htold)
  have hbefore := (List.suffix_cons _ _).trans (hs.trans htold)
  have hmin : IsCalendarDate (str "1999-01-04") := ⟨by decide, by decide, by decide, by decide⟩
  obtain ⟨first, hfirst, hreadMin, hwriteMin⟩ := hmin.exists_localDay
  obtain ⟨last, hlast, hreadMax, hwriteMax⟩ :=
    (hclock i w today (hbefore.mem hread)).exists_localDay
  obtain ⟨a, b, hstart, hend, ha, hb⟩ := hfits.dates first last hreadMin hreadMax
  exact ⟨first, last, a, b, ⟨hwriteMin, hwriteMax, hfirst, hlast⟩, hstart, hend, ha, hb⟩

/-- While the site keeps listing the two codes, the server refuses a submission of the form
only for what the form does not check: the same currency twice, or a start after the end. -/
theorem submissions_are_refused_only_for (hreach : Reaches limits schedule (some tab))
    {calls : Calls D} (hcalls : calls ∈ tab.calls)
    (hfinite : Double.isfinite calls.submission.amount = true)
    (hsteady : Steady (limits.run schedule).log calls.submission.sourceCurrency
      calls.submission.targetCurrency)
    (hclock : ClockOfCalendar (limits.run schedule).log) {status : Status}
    (hrefuses : status.Refuses) :
    (.responded calls.convert (.error status) ∈ (limits.run schedule).log →
      calls.submission.sourceCurrency = calls.submission.targetCurrency) ∧
    (.responded calls.getHistory (.error status) ∈ (limits.run schedule).log →
      calls.submission.sourceCurrency = calls.submission.targetCurrency ∨
        ∃ a b : LocalDay, calls.submission.startDate = toDateInput (.day a) ∧
          calls.submission.endDate = toDateInput (.day b) ∧ b.before a = true) := by
  obtain ⟨told, bounds, hstarted, hfits⟩ :=
    (linked_of_reaches hreach tab rfl).sent calls hcalls
  have hconvert := (List.suffix_cons _ _).trans hstarted
  have htold := (List.suffix_cons _ _).trans hconvert
  constructor
  · intro hout
    by_contra hne
    exact not_refuses_of_complies hsteady hconvert ⟨hne, hfits.codes, hfits.advertised⟩
      ⟨⟨rfl, rfl⟩, hfinite, hfits.amount⟩ hout hrefuses
  · intro hout
    by_contra hneither
    rw [not_or] at hneither
    obtain ⟨hne, hordered⟩ := hneither
    obtain ⟨first, last, a, b, hbounds, hstart, hend, ha, hb⟩ := exists_days hfits htold hclock
    have hbefore : b.before a = false := by
      rw [← Bool.not_eq_true]
      exact fun hlt ↦ hordered ⟨a, b, hstart, hend, hlt⟩
    have hstartIn := hbounds.within ha
    have hendIn := hbounds.within hb
    have hnot := (hbounds.not_lt_iff ha hb).mpr hbefore
    rw [← hstart] at hstartIn hnot
    rw [← hend] at hendIn hnot
    obtain ⟨i, infos, hlist, hcodes⟩ := hfits.codes
    obtain ⟨j, hadvertised⟩ := hfits.advertised
    have htold' : Told (.started calls.convert (.convert calls.submission.convert) :: told)
        calls.submission.sourceCurrency calls.submission.targetCurrency bounds :=
      ⟨hne, ⟨i, infos, List.mem_cons_of_mem _ hlist, hcodes⟩,
        ⟨j, List.mem_cons_of_mem _ hadvertised⟩⟩
    exact not_refuses_of_complies hsteady hstarted htold' ⟨⟨rfl, rfl⟩, hstartIn.1, hendIn.1,
      hstartIn.2.1, hnot, hendIn.2.2⟩ hout hrefuses

/-! ## Dollars to euros in March -/

theorem Reaches.acts {state : Option (Tab D)} (h : Reaches limits schedule state) (i : ℕ)
    (w : Tick D) (n : ℕ) : Reaches limits (List.replicate n (.act i w) ++ schedule) state := by
  induction n with
  | zero => exact h
  | succ n ih => exact .server (.act i w) ih

def marchList : List CurrencyInfo :=
  [⟨str "EUR", str "Euro"⟩, ⟨str "USD", str "United States Dollar"⟩]

def marchTold : ConstraintsResponse ℚ :=
  ⟨0.01, 1000000000.0, str "1999-01-04", str "2024-03-04"⟩

/-- The user picks the currencies and leaves the end date and the amount as they are. -/
def marchEvents : List (Event ℚ) :=
  [.lookupsLoaded marchList marchTold, .edit (.sourceCurrency (str "USD")),
    .edit (.targetCurrency (str "EUR")), .edit (.startDate (some (fromDateInput (str "2024-03-02")))),
    .submit,
    .succeed ⟨100.0, 100.0 * (2 : ℕ), (2 : ℕ), str "2024-03-01"⟩
      ⟨str "USD", str "EUR", [⟨str "2024-03-04", (3 : ℕ)⟩]⟩]

def marchSession (n : ℕ) : Session ℚ :=
  (EventRun.run Session.step Session.init (marchEvents.take n)).getD Session.init

def marchSubmission : Submission ℚ :=
  ⟨str "USD", str "EUR", 100.0, str "2024-03-02", str "2024-03-04"⟩

def marchLookups : Schedule ℚ :=
  List.replicate 2 (.act 1 fourthOfMarch) ++ (List.replicate 4 (.act 0 fourthOfMarch) ++
    [.start .getConstraints, .start .listCurrencies])

def marchCalls : Schedule ℚ :=
  List.replicate 7 (.act 3 fourthOfMarch) ++ (List.replicate 7 (.act 2 fourthOfMarch) ++
    .start (.getHistory marchSubmission.getHistory) ::
      .start (.convert marchSubmission.convert) :: marchLookups)

theorem reaches_marchPair :
    Reaches .builtIn marchLookups (some ⟨marchSession 3, 0, 1, []⟩) := by
  have hopened : Reaches .builtIn [.start .getConstraints, .start .listCurrencies]
      (some ⟨marchSession 0, 0, 1, []⟩) := .opened .nobody
  have hlookups : Reaches .builtIn marchLookups (some ⟨marchSession 0, 0, 1, []⟩) :=
    (hopened.acts 0 fourthOfMarch 4).acts 1 fourthOfMarch 2
  have hloaded : Reaches .builtIn marchLookups (some ⟨marchSession 1, 0, 1, []⟩) := by
    refine hlookups.event (.lookupsLoaded ?_ ?_) (by with_unfolding_all rfl)
    · exact List.mem_of_getElem? (i := 2) (by with_unfolding_all rfl)
    · exact List.mem_of_getElem? (i := 0) (by with_unfolding_all rfl)
  have hsource : Reaches .builtIn marchLookups (some ⟨marchSession 2, 0, 1, []⟩) := by
    refine hloaded.event (.edit ?_) (by with_unfolding_all rfl)
    exact ⟨_, List.mem_cons_of_mem _ List.mem_cons_self, rfl⟩
  refine hsource.event (.edit ?_) (by with_unfolding_all rfl)
  exact ⟨_, List.mem_cons_self, rfl⟩

theorem reaches_marchResult :
    Reaches .builtIn marchCalls (some ⟨marchSession 6, 0, 1, [⟨marchSubmission, 2, 3⟩]⟩) := by
  have hsubmitted : Reaches .builtIn
      (.start (.getHistory marchSubmission.getHistory) ::
        .start (.convert marchSubmission.convert) :: marchLookups)
      (some ⟨marchSession 5, 0, 1, [⟨marchSubmission, 2, 3⟩]⟩) := by
    have hsubmission : (marchSession 4).submission = some marchSubmission := by
      with_unfolding_all rfl
    have hstep : (marchSession 4).step .submit = some (marchSession 5) := by
      with_unfolding_all rfl
    have hthreads : (Limits.builtIn.run marchLookups).threads.length = 2 := by
      with_unfolding_all rfl
    have hform : Reaches .builtIn marchLookups (some ⟨marchSession 4, 0, 1, []⟩) :=
      reaches_marchPair.event (e := .edit (.startDate (some (fromDateInput (str "2024-03-02")))))
        (.edit trivial) (by with_unfolding_all rfl)
    have hreach := hform.event .submit hstep
    simp only [Tab.requests, Tab.callsAfter, hsubmission, hthreads] at hreach
    exact hreach
  have hserved : Reaches .builtIn marchCalls
      (some ⟨marchSession 5, 0, 1, [⟨marchSubmission, 2, 3⟩]⟩) :=
    (hsubmitted.acts 2 fourthOfMarch 7).acts 3 fourthOfMarch 7
  refine hserved.event (.succeed rfl ?_ ?_) (by with_unfolding_all rfl)
  · exact List.mem_of_getElem? (i := 7) (by with_unfolding_all rfl)
  · exact List.mem_of_getElem? (i := 0) (by with_unfolding_all rfl)

theorem inMarch_append {schedule : Schedule ℚ} (h : InMarch schedule) (i n : ℕ) :
    InMarch (List.replicate n (.act i fourthOfMarch) ++ schedule) := by
  intro j w hact
  rcases List.mem_append.mp hact with hact | hact
  · cases (List.mem_replicate.mp hact).2
    rfl
  · exact h j w hact

theorem inMarch_starts {schedule : Schedule ℚ} (h : InMarch schedule) (q q' : Request ℚ) :
    InMarch (.start q' :: .start q :: schedule) := by
  intro i w hact
  simp only [List.mem_cons, reduceCtorEq, false_or] at hact
  exact h i w hact

theorem inMarch_marchLookups : InMarch marchLookups := by
  have hnone : InMarch [] := by
    intro i w hact
    cases hact
  exact inMarch_append (inMarch_append (inMarch_starts hnone _ _) 0 4) 1 2

theorem displayed_is_the_market_in_march :
    ∃ calls ∈ [(⟨marchSubmission, 2, 3⟩ : Calls ℚ)],
      (∃ delivery, (marchSession 6).delivered = some delivery ∧
        Tab.Received (Limits.builtIn.run marchCalls).log delivery calls ∧
        delivery.convertResponse =
          ⟨100.0, 100.0 * (2 : ℕ), (2 : ℕ), str "2024-03-01"⟩ ∧
        delivery.historyResponse.points = [⟨str "2024-03-04", (3 : ℕ)⟩]) ∧
      (∃ before, before <:+ (Limits.builtIn.run marchCalls).log ∧
        SaysMarket .builtIn (fun _ ↦ marchMarket) before calls.convert
          (.convert calls.submission.convert)
          (.convert ⟨100.0, 100.0 * (2 : ℕ), (2 : ℕ), str "2024-03-01"⟩)) ∧
      ∃ before, before <:+ (Limits.builtIn.run marchCalls).log ∧
        SaysMarket .builtIn (fun _ ↦ marchMarket) before calls.getHistory
          (.getHistory calls.submission.getHistory)
          (.getHistory ⟨calls.submission.sourceCurrency, calls.submission.targetCurrency,
            [⟨str "2024-03-04", (3 : ℕ)⟩]⟩) := by
  have hmarket : BehindMarket (fun _ ↦ marchMarket) marchCalls :=
    (inMarch_append (inMarch_append (inMarch_starts inMarch_marchLookups _ _) 2 7) 3 7).behindMarket
  have hblock : (marchSession 6).resultBlock = some ⟨100.0, str "USD", 100.0 * (2 : ℕ), str "EUR",
      (2 : ℕ), str "2024-03-01", [⟨str "2024-03-04", (3 : ℕ)⟩], str "USD", str "EUR"⟩ := by
    with_unfolding_all rfl
  exact displayed_is_the_market reaches_marchResult hmarket hblock

/-! ## The end before the start -/

def reversedEvents : List (Event ℚ) :=
  marchEvents.take 3 ++ [.edit (.startDate (some (fromDateInput (str "2024-03-04")))),
    .edit (.endDate (some (fromDateInput (str "2024-03-02")))), .submit]

def reversedSession (n : ℕ) : Session ℚ :=
  (EventRun.run Session.step Session.init (reversedEvents.take n)).getD Session.init

def reversedSubmission : Submission ℚ :=
  ⟨str "USD", str "EUR", 100.0, str "2024-03-04", str "2024-03-02"⟩

def reversedCalls : Schedule ℚ :=
  List.replicate 1 (.act 3 fourthOfMarch) ++
    .start (.getHistory reversedSubmission.getHistory) ::
      .start (.convert reversedSubmission.convert) :: marchLookups

theorem reaches_reversed : Reaches .builtIn reversedCalls
    (some ⟨reversedSession 6, 0, 1, [⟨reversedSubmission, 2, 3⟩]⟩) := by
  have hstart : Reaches .builtIn marchLookups (some ⟨reversedSession 4, 0, 1, []⟩) :=
    reaches_marchPair.event (e := .edit (.startDate (some (fromDateInput (str "2024-03-04")))))
      (.edit trivial) (by with_unfolding_all rfl)
  have hform : Reaches .builtIn marchLookups (some ⟨reversedSession 5, 0, 1, []⟩) :=
    hstart.event (e := .edit (.endDate (some (fromDateInput (str "2024-03-02")))))
      (.edit trivial) (by with_unfolding_all rfl)
  have hsubmission : (reversedSession 5).submission = some reversedSubmission := by
    with_unfolding_all rfl
  have hstep : (reversedSession 5).step .submit = some (reversedSession 6) := by
    with_unfolding_all rfl
  have hthreads : (Limits.builtIn.run marchLookups).threads.length = 2 := by
    with_unfolding_all rfl
  have hreach := hform.event .submit hstep
  simp only [Tab.requests, Tab.callsAfter, hsubmission, hthreads] at hreach
  exact Reaches.acts hreach 3 fourthOfMarch 1

theorem submissions_are_refused_only_for_reversed :
    reversedSubmission.sourceCurrency = reversedSubmission.targetCurrency ∨
      ∃ a b : LocalDay, reversedSubmission.startDate = toDateInput (.day a) ∧
        reversedSubmission.endDate = toDateInput (.day b) ∧ b.before a = true := by
  have hmarch : InMarch reversedCalls :=
    inMarch_append (inMarch_starts inMarch_marchLookups _ _) 3 1
  have htoday : ∀ {i w} {today : CalendarDate},
      .acted i w .systemClock today ∈ (Limits.builtIn.run reversedCalls).log →
        today = fourthOfMarch.today := by
    intro i w today hread
    obtain ⟨rfl, hact⟩ := eq_today_of_clock hread
    rw [hmarch i w hact]
  have hsteady : Steady (Limits.builtIn.run reversedCalls).log (str "USD") (str "EUR") := by
    refine ⟨?_, by decide, ?_⟩
    · intro i w list hcall
      obtain ⟨hlist, hact⟩ := eq_upstream_of_call hcall
      cases hmarch i w hact
      have hanswer : threePagesClient.answer .listCurrencies = .ok list :=
        FrankfurterClient.provider_eq_ok_iff.mp hlist.symm
      cases FrankfurterClient.tells_of_answer FrankfurterClient.honest_threePages
        Query.plain_listCurrencies hanswer
      decide
    · intro i w today l j w' earlier hs hearlier
      have hmem := hs.mem List.mem_cons_self
      rw [htoday hmem, htoday (((List.suffix_cons _ _).trans hs).mem hearlier)]
  have hclock : ClockOfCalendar (Limits.builtIn.run reversedCalls).log := by
    intro i w today hread
    rw [htoday hread]
    exact ⟨by decide, by decide, by decide, by decide⟩
  have hout : .responded 3 (.error ⟨.invalidArgument,
      str "start_date must not be after end_date"⟩) ∈ (Limits.builtIn.run reversedCalls).log :=
    List.mem_of_getElem? (i := 0) (by with_unfolding_all rfl)
  exact (submissions_are_refused_only_for reaches_reversed List.mem_cons_self rfl hsteady hclock
    (.inl rfl)).2 hout

end CurrencyConverter
