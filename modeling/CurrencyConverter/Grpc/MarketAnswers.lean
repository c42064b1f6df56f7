import CurrencyConverter.External.Market
import CurrencyConverter.Grpc.ClientProvider
import CurrencyConverter.Grpc.Provenance

/-!
# From the market to the response

The server asks the site for nothing but plain queries, whatever its requests say.  With an
honest site behind it, every `OK` response is what the market says at one moment, by way of
the client, a cache and the handler.
-/

namespace CurrencyConverter

open AtomicProgram

variable {D : Type}

/-! ## What the site is asked -/

/-- Every listed code is of letters and digits. -/
def CodesAlphanumeric (log : Log D) : Prop :=
  ∀ i w list, .acted i w (.call .listCurrencies) (.ok list) ∈ log →
    ∀ cur ∈ list, Alphanumeric cur.code

theorem CodesAlphanumeric.withoutBar {log : Log D} (h : CodesAlphanumeric log) :
    CodesWithoutBar log :=
  fun i w list hcall cur hcur ↦ (h i w list hcall cur hcur).not_mem (by decide)

theorem Query.plain_of_codes {c : CacheId} {q : Query c}
    (h : ∀ code ∈ q.codes, Alphanumeric code) : q.Plain := by
  cases q with
  | listCurrencies => trivial
  | latestRate source target => exact ⟨h source (by simp [codes]), h target (by simp [codes])⟩
  | history source target range => exact ⟨h source (by simp [codes]), h target (by simp [codes])⟩

section Runs

variable [Double D] {limits : Limits} {schedule : Schedule D}

theorem plain_of_call (hcodes : CodesAlphanumeric (limits.run schedule).log) {i : ℕ} {w : Tick D}
    {c : CacheId} {q : Query c} {r : Except ProviderException (Stored D c)}
    (h : .acted i w (.call q) r ∈ (limits.run schedule).log) : q.Plain := by
  obtain ⟨l, hl⟩ := exists_suffix_of_mem h
  obtain ⟨req, _, h', hproject, hasks⟩ := permitted hl
  apply Query.plain_of_codes
  intro code hcode
  have hknown : Known code (project i l) := by
    rw [hproject]
    exact (hasks.2.2 code hcode).mono (List.suffix_cons _ _)
  obtain ⟨j, w', list, hcall, cur, hcur, rfl⟩ :=
    exists_list_of_known ((List.suffix_cons _ _).trans hl) hknown
  exact hcodes j w' list hcall cur hcur

/-- Whatever strings the requests of a run carry, each path that the client is asked for
reads back as the query of the call, and has no byte that could end or escape it. -/
theorem calls_keep_to_the_paths (hcodes : CodesAlphanumeric (limits.run schedule).log) {i : ℕ}
    {w : Tick D} {c : CacheId} {q : Query c} {r : Except ProviderException (Stored D c)}
    (h : .acted i w (.call q) r ∈ (limits.run schedule).log) :
    readPath q.path = some ⟨c, q⟩ ∧ ∀ b ∈ q.path, isPathByte b = true :=
  ⟨Query.readPath_path (plain_of_call hcodes h), Query.isPathByte_path (plain_of_call hcodes h)⟩

end Runs

/-! ## What the market answers -/

/-- At every tick the provider is the client of a site that is honest about the market of
the tick, whose codes are of letters and digits. -/
structure BehindMarket (market : Tick D → Market D) (schedule : Schedule D) : Prop where
  honest : ∀ i w, .act i w ∈ schedule →
    ∃ client : FrankfurterClient D, w.upstream = client.provider ∧ client.Honest (market w)
  alphanumeric : ∀ i w, .act i w ∈ schedule → ∀ cur ∈ (market w).currencies, Alphanumeric cur.code

/-- The provider gave `v` at `w'`, to thread `i` itself or to one that put it where `i`
found it, and not too long ago. -/
def AnsweredAt (limits : Limits) (log : Log D) (i : ℕ) {c : CacheId} (q : Query c)
    (v : Stored D c) (w' : Tick D) : Prop :=
  .acted i w' (.call q) (.ok v) ∈ log ∨
    ∃ w l, .acted i w (.cacheGet c q.cacheKey) (some v) :: l <:+ log ∧
      ∃ j w₀ l₀, .acted j w₀ (.cachePut c q.cacheKey v) () :: l₀ <:+ l ∧
        w.now - w₀.now ≤ limits.maxAge c * 60000000000 ∧ .acted j w' (.call q) (.ok v) ∈ l₀

/-- The response is what the market says to the request, at the tick `w'` of a call that was
made for it or for an answer that was still fresh. -/
def SaysMarket (limits : Limits) (market : Tick D → Market D) (log : Log D) (i : ℕ) [Mul D] :
    Request D → Response D → Prop
  | .listCurrencies, .listCurrencies currencies => ∃ list w',
      AnsweredAt limits log i .listCurrencies list w' ∧
        currencies = (market w').currencies.map fun cur ↦ ⟨cur.code, cur.fullName⟩
  | .convert r, .convert response => ∃ v w' rate,
      AnsweredAt limits log i (.latestRate (toUpper r.sourceCurrency) (toUpper r.targetCurrency))
        v w' ∧
      (market w').quote (toUpper r.sourceCurrency) (toUpper r.targetCurrency)
        (market w').lastDay = some rate ∧
      response = ⟨r.amount, r.amount * rate, rate, (market w').lastDay⟩
  | .getHistory r, .getHistory response => ∃ v w' range,
      range.startDate = r.startDate ∧ range.endDate = r.endDate ∧
      AnsweredAt limits log i
        (.history (toUpper r.sourceCurrency) (toUpper r.targetCurrency) range) v w' ∧
      response.sourceCurrency = r.sourceCurrency ∧ response.targetCurrency = r.targetCurrency ∧
      (response.points.Pairwise fun point point' ↦ point.date < point'.date) ∧
      ∀ day rate, ⟨day, rate⟩ ∈ response.points ↔ range.Contains day ∧
        (market w').quote (toUpper r.sourceCurrency) (toUpper r.targetCurrency) day = some rate
  | .getConstraints, .getConstraints _ => True
  | _, _ => False

section Runs

variable [Double D] {limits : Limits} {schedule : Schedule D} {market : Tick D → Market D}

theorem BehindMarket.codesAlphanumeric (hmarket : BehindMarket market schedule) :
    CodesAlphanumeric (limits.run schedule).log := by
  intro i w list hcall cur hcur
  obtain ⟨hlist, hact⟩ := eq_upstream_of_call hcall
  obtain ⟨client, hclient, hhonest⟩ := hmarket.honest i w hact
  rw [hclient] at hlist
  have hanswer : client.answer .listCurrencies = .ok list :=
    FrankfurterClient.provider_eq_ok_iff.mp hlist.symm
  cases FrankfurterClient.tells_of_answer hhonest Query.plain_listCurrencies hanswer
  exact hmarket.alphanumeric i w hact cur hcur

theorem tells_of_call (hmarket : BehindMarket market schedule) {i : ℕ} {w : Tick D} {c : CacheId}
    {q : Query c} {v : Stored D c}
    (h : .acted i w (.call q) (.ok v) ∈ (limits.run schedule).log) : (market w).Tells q v := by
  obtain ⟨hv, hact⟩ := eq_upstream_of_call h
  obtain ⟨client, hclient, hhonest⟩ := hmarket.honest i w hact
  have hplain := plain_of_call hmarket.codesAlphanumeric h
  rw [hclient] at hv
  exact FrankfurterClient.tells_of_answer hhonest hplain
    (FrankfurterClient.provider_eq_ok_iff.mp hv.symm)

theorem tells_of_answeredAt (hmarket : BehindMarket market schedule) {i : ℕ} {l : Log D}
    (hs : l <:+ (limits.run schedule).log) {c : CacheId} {q : Query c} {v : Stored D c}
    {w' : Tick D} (h : AnsweredAt limits l i q v w') : (market w').Tells q v := by
  rcases h with hcall | ⟨w, l₁, hget, j, w₀, l₀, hput, -, hcall⟩
  · exact tells_of_call hmarket (hs.mem hcall)
  · have hl₀ : l₀ <:+ l :=
      (List.suffix_cons _ _).trans (hput.trans ((List.suffix_cons _ _).trans hget))
    exact tells_of_call hmarket (hs.mem (hl₀.mem hcall))

omit [Double D] in
theorem exists_answeredAt {log : Log D} {i : ℕ} {c : CacheId} {q : Query c} {v : Stored D c}
    (h : Provenance limits log i q v) : ∃ w', AnsweredAt limits log i q v w' := by
  rcases h with ⟨w', hcall⟩ | ⟨w, l, hget, j, w₀, l₀, hput, hage, w', hcall⟩
  · exact ⟨w', .inl hcall⟩
  · exact ⟨w', .inr ⟨w, l, hget, j, w₀, l₀, hput, hage, hcall⟩⟩

/-- The list has one key and one query, so it needs no request to know its provenance. -/
theorem provenance_of_list {i : ℕ} {l : Log D} (hs : l <:+ (limits.run schedule).log)
    {list : List Currency} (hobtained : Obtained (project i l) .listCurrencies list) :
    Provenance limits l i .listCurrencies list := by
  rcases hobtained with ⟨h', hproject⟩ | ⟨h', hproject⟩
  · obtain ⟨w, l₁, hget, rfl⟩ := exists_acted_of_project hproject
    have hget' := hget.trans hs
    obtain ⟨j, w₀, l₀, hput, hage, _⟩ := exists_put_of_hit hget'
    obtain ⟨q, -, -, w₁, l₂, hcall⟩ :=
      exists_call_of_put (hput.trans ((List.suffix_cons _ _).trans hget'))
    cases q
    exact .inr ⟨w, l₁, hget, j, w₀, l₀, hput, hage, w₁, hcall.mem List.mem_cons_self⟩
  · obtain ⟨w, l₁, hput, hproject₁⟩ := exists_acted_of_project hproject
    obtain ⟨w₁, l₂, hcall, _⟩ := exists_acted_of_project hproject₁
    exact .inl ⟨w₁, (hcall.trans ((List.suffix_cons _ _).trans hput)).mem List.mem_cons_self⟩

section Responses

variable (hmarket : BehindMarket market schedule) {i : ℕ} {before : Log D}
  (hbefore : before <:+ (limits.run schedule).log)

include hmarket hbefore

theorem says_list {list : List Currency}
    (hobtained : Obtained (project i before) .listCurrencies list) :
    SaysMarket limits market before i .listCurrencies
      (.listCurrencies (list.map fun cur ↦ ⟨cur.code, cur.fullName⟩)) := by
  obtain ⟨w', hw'⟩ := exists_answeredAt (provenance_of_list hbefore hobtained)
  cases tells_of_answeredAt hmarket hbefore hw'
  exact ⟨_, w', hw', rfl⟩

theorem says_convert {r : ConvertRequest D} (hreq : requestOf i before = some (.convert r))
    {rate : ExchangeRate D} (hobtained : Obtained (project i before) r.pair rate) :
    SaysMarket limits market before i (.convert r)
      (.convert ⟨r.amount, r.amount * rate.rate, rate.rate, rate.date⟩) := by
  have hcodes : CodesWithoutBar (limits.run schedule).log :=
    hmarket.codesAlphanumeric.withoutBar
  obtain ⟨w', hw'⟩ :=
    exists_answeredAt (provenance_of_obtained hcodes hbefore hreq rfl hobtained)
  obtain ⟨q, hquote, rfl⟩ := tells_of_answeredAt hmarket hbefore hw'
  exact ⟨_, w', q, hw', hquote, rfl⟩

theorem says_getHistory {r : HistoryRequest} (hreq : requestOf i before = some (.getHistory r))
    {range : DateRange} (hrange : DateRange.construct r.startDate r.endDate = .ok range)
    {points : List (ExchangeRate D)} (hobtained : Obtained (project i before)
      (.history (toUpper r.sourceCurrency) (toUpper r.targetCurrency) range) points) :
    SaysMarket limits market before i (.getHistory r) (.getHistory ⟨r.sourceCurrency,
      r.targetCurrency, points.map fun point ↦ ⟨point.date, point.rate⟩⟩) := by
  have hcodes : CodesWithoutBar (limits.run schedule).log :=
    hmarket.codesAlphanumeric.withoutBar
  obtain ⟨hstart, hend⟩ := DateRange.construct_eq_ok.mp hrange
  have hquery : (Request.getHistory r : Request D).query = some ⟨.history,
      .history (toUpper r.sourceCurrency) (toUpper r.targetCurrency) range⟩ := by
    simp [Request.query, hrange]
  obtain ⟨w', hw'⟩ :=
    exists_answeredAt (provenance_of_obtained hcodes hbefore hreq hquery hobtained)
  obtain ⟨hincreasing, hmem⟩ := tells_of_answeredAt hmarket hbefore hw'
  refine ⟨points, w', range, hstart, hend, hw', rfl, rfl, List.pairwise_map.mpr hincreasing, ?_⟩
  intro day rate
  rw [List.mem_map]
  constructor
  · rintro ⟨point, hpoint, heq⟩
    obtain ⟨rfl, rfl⟩ := HistoryPoint.mk.inj heq
    obtain ⟨hin, -, -, hquote⟩ := (hmem point).mp hpoint
    exact ⟨hin, hquote⟩
  · rintro ⟨hin, hquote⟩
    exact ⟨⟨_, _, rate, day⟩, (hmem _).mpr ⟨hin, rfl, rfl, hquote⟩, rfl⟩

end Responses

/-- In every run behind an honest site, every `OK` response is the market's own answer to
its request. -/
theorem responses_say_the_market (hmarket : BehindMarket market schedule) {i : ℕ} {before : Log D}
    {response : Response D}
    (hs : .responded i (.ok response) :: before <:+ (limits.run schedule).log) :
    ∃ req, requestOf i before = some req ∧ SaysMarket limits market before i req response := by
  have hbefore : before <:+ (limits.run schedule).log := (List.suffix_cons _ _).trans hs
  obtain ⟨req, hreq, hanswers⟩ := (legal_log limits schedule).result holds_serve hs
  refine ⟨req, hreq, ?_⟩
  cases response with
  | listCurrencies currencies =>
      obtain ⟨rfl, list, hobtained, rfl⟩ := hanswers
      exact says_list hmarket hbefore hobtained
  | convert response =>
      obtain ⟨r, rate, rfl, hobtained, rfl⟩ := hanswers
      exact says_convert hmarket hbefore hreq hobtained
  | getHistory response =>
      obtain ⟨r, range, points, rfl, hrange, hobtained, rfl⟩ := hanswers
      exact says_getHistory hmarket hbefore hreq hrange hobtained
  | getConstraints response =>
      cases hanswers
      trivial

end Runs

/-! ## A run in March -/

def fourthOfMarch : Tick ℚ :=
  ⟨0, { firstOfMarch with day := 4, day_mem := by decide }, threePagesClient.provider⟩

def dollarsInMarch : Request ℚ :=
  .getHistory ⟨str "usd", str "EUR", str "2024-03-02", str "2024-03-04"⟩

def marchHistory (n : ℕ) : Schedule ℚ :=
  List.replicate n (.act 0 fourthOfMarch) ++ [.start dollarsInMarch]

def InMarch (schedule : Schedule ℚ) : Prop := ∀ i w, .act i w ∈ schedule → w = fourthOfMarch

theorem InMarch.behindMarket {schedule : Schedule ℚ} (h : InMarch schedule) :
    BehindMarket (fun _ ↦ marchMarket) schedule := by
  constructor
  · intro i w hact
    cases h i w hact
    exact ⟨threePagesClient, rfl, FrankfurterClient.honest_threePages⟩
  · intro i w _ cur hcur
    simp only [marchMarket, List.mem_cons, List.not_mem_nil, or_false] at hcur
    rcases hcur with rfl | rfl
    · decide
    · decide

theorem inMarch_marchHistory (n : ℕ) : InMarch (marchHistory n) := by
  intro i w hact
  rcases List.mem_append.mp hact with hact | hact
  · cases (List.mem_replicate.mp hact).2
    rfl
  · cases List.mem_singleton.mp hact

theorem calls_keep_to_the_paths_in_march :
    readPath historyPage.1 = some ⟨_, .history (str "USD") (str "EUR") earlyMarch⟩ ∧
      ∀ b ∈ historyPage.1, isPathByte b = true := by
  have hcall : .acted 0 fourthOfMarch (.call (.history (str "USD") (str "EUR") earlyMarch))
      (.ok [⟨str "USD", str "EUR", (3 : ℕ), str "2024-03-04"⟩]) ∈
        (Limits.builtIn.run (marchHistory 7)).log := by
    have hlog : ∃ l, (Limits.builtIn.run (marchHistory 7)).log = .acted 0 fourthOfMarch
        (.call (.history (str "USD") (str "EUR") earlyMarch))
        (.ok [⟨str "USD", str "EUR", (3 : ℕ), str "2024-03-04"⟩]) :: l :=
      ⟨_, by with_unfolding_all rfl⟩
    obtain ⟨l, hl⟩ := hlog
    rw [hl]
    exact List.mem_cons_self
  exact calls_keep_to_the_paths (inMarch_marchHistory 7).behindMarket.codesAlphanumeric hcall

theorem responses_say_the_market_in_march :
    ∃ req, requestOf 0 (Limits.builtIn.run (marchHistory 8)).log = some req ∧
      SaysMarket .builtIn (fun _ ↦ marchMarket) (Limits.builtIn.run (marchHistory 8)).log 0 req
        (.getHistory ⟨str "usd", str "EUR", [⟨str "2024-03-04", (3 : ℕ)⟩]⟩) := by
  have hs : .responded 0 (.ok (.getHistory ⟨str "usd", str "EUR",
      [⟨str "2024-03-04", (3 : ℕ)⟩]⟩)) :: (Limits.builtIn.run (marchHistory 8)).log <:+
        (Limits.builtIn.run (marchHistory 9)).log :=
    ⟨[], by with_unfolding_all rfl⟩
  exact responses_say_the_market (inMarch_marchHistory 9).behindMarket hs

end CurrencyConverter
