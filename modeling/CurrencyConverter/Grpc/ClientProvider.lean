import CurrencyConverter.Domain.IsoDate
import CurrencyConverter.External.ClientFailures
import CurrencyConverter.External.HistoryExtraction
import CurrencyConverter.Grpc.Failures

/-!
# The server with the client as its provider

What the services see of the client's exceptions decides the status that a request gets,
and what the client extracts is what a chart is drawn from.
-/

namespace CurrencyConverter

open AtomicProgram CoherentCache Raising

variable {D : Type}

/-- The client never throws `invalidArgument` or `currencyNotFound` (`provider_cases`), so it
does not matter where these go; of the last two only the text is left. -/
def Thrown.toProviderException : Thrown → ProviderException
  | .domain (.externalApiUnavailable what) => .unavailable what
  | .domain (.externalApiUnexpectedResponse what) => .unexpectedResponse what
  | .domain (.invalidArgument what) => .other what
  | .domain (.currencyNotFound what) => .other what
  | .domain (.other what) => .other what
  | .poco ex => .other ex.displayText

namespace FrankfurterClient

def provider (client : FrankfurterClient D) : Upstream D :=
  fun _ query ↦ (client.answer query).mapError Thrown.toProviderException

theorem provider_eq_ok_iff {client : FrankfurterClient D} {c : CacheId} {query : Query c}
    {value : Stored D c} :
    client.provider c query = .ok value ↔ client.answer query = .ok value := by
  rw [provider]
  cases client.answer query with
  | ok found => simp [Except.mapError]
  | error thrown => simp [Except.mapError]

/-- What the services see of a call, by the step that it fails in. -/
theorem provider_cases (client : FrankfurterClient D) {c : CacheId} (query : Query c) :
    (¬ client.Connects query.path ∧ ∃ what, client.provider c query = .error (.other what)) ∨
    (client.Connects query.path ∧ (¬ ∃ body, client.Delivers query.path body) ∧
      ∃ what, client.provider c query = .error (.unavailable what)) ∨
    ∃ body, client.Delivers query.path body ∧
      ((∃ value, client.read query body = .ok value ∧ client.provider c query = .ok value) ∨
        ∃ thrown what, client.read query body = .error thrown ∧
          client.provider c query = .error (.unexpectedResponse what)) := by
  by_cases hconnects : client.Connects query.path
  · right
    by_cases hdelivers : ∃ body, client.Delivers query.path body
    · obtain ⟨body, hbody⟩ := hdelivers
      refine .inr ⟨body, hbody, ?_⟩
      have hanswer := answer_of_delivers hbody
      rcases raises_cases (raises_read client query body) with ⟨value, hvalue⟩ |
        ⟨thrown, hthrown, hdomain⟩
      · exact .inl ⟨value, hvalue, provider_eq_ok_iff.mpr (hanswer.trans hvalue)⟩
      · cases thrown with
        | domain ex =>
            obtain ⟨what, rfl⟩ := hdomain
            refine .inr ⟨_, what, hthrown, ?_⟩
            rw [provider, hanswer, hthrown]
            rfl
        | poco ex => exact hdomain.elim
    · obtain ⟨what, hwhat⟩ := answer_of_not_delivers hconnects hdelivers
      refine .inl ⟨hconnects, hdelivers, what, ?_⟩
      rw [provider, hwhat]
      rfl
  · obtain ⟨ex, hex⟩ := answer_of_not_connects hconnects
    refine .inl ⟨hconnects, ex.displayText, ?_⟩
    rw [provider, hex]
    rfl

end FrankfurterClient

/-! ## The status of a failed request -/

section Alone

variable [Double D] {w : ℕ → Tick D} {caches : Caches D} {req : Request D}
  {client : ℕ → FrankfurterClient D}

theorem eq_upstream_of_actions {c : CacheId} {q : Query c}
    {answer : Except ProviderException (Stored D c)} {h : History D}
    (hs : ⟨.call q, answer⟩ :: h <:+ actions w caches req) :
    answer = (w h.length).upstream c q :=
  answered_actions w caches req _ _ hs

/-- `UNAVAILABLE` is the status of a request whose client got no `200` body, although it
could make the URI and the session. -/
theorem unavailable_from_client (hclient : ∀ i, (w i).upstream = (client i).provider) {what : Str}
    (hout : outcome w caches req = .error ⟨.unavailable, what⟩) :
    ∃ (i : ℕ) (c : CacheId) (q : Query c), (client i).Connects q.path ∧
      ¬ ∃ body, (client i).Delivers q.path body := by
  obtain ⟨ex, hrefused, hstatus⟩ := explained_of_failure hout
  generalize hactions : actions w caches req = h at hrefused
  cases hrefused with
  | provider _ h q e =>
      have hs : ⟨.call q, .error e⟩ :: h <:+ actions w caches req := by
        rw [hactions]
      have hcall := eq_upstream_of_actions hs
      rw [hclient] at hcall
      rcases (client h.length).provider_cases q with ⟨-, what', hother⟩ |
        ⟨hconnects, hnone, -⟩ | ⟨body, -, ⟨value, -, hok⟩ | ⟨-, what', -, hunexpected⟩⟩
      · cases hcall.trans hother
        cases hstatus
      · exact ⟨_, _, q, hconnects, hnone⟩
      · cases hcall.trans hok
      · cases hcall.trans hunexpected
        cases hstatus
  | malformed r ex hrange =>
      obtain ⟨what', rfl⟩ := DateRange.construct_error hrange
      cases hstatus
  | _ => cases hstatus

/-- `INTERNAL` is the status of one whose client could not make the URI or the session, or
got a `200` body that it could not read or that lists no currency. -/
theorem internal_from_client (hclient : ∀ i, (w i).upstream = (client i).provider) {what : Str}
    (hout : outcome w caches req = .error ⟨.internal, what⟩) :
    ∃ i, (∃ (c : CacheId) (q : Query c), ¬ (client i).Connects q.path ∨
        ∃ body thrown, (client i).Delivers q.path body ∧
          (client i).read q body = .error thrown) ∨
      ∃ body, (client i).Delivers (str "/v1/currencies") body ∧
        (client i).readCurrencies body = .ok [] := by
  obtain ⟨ex, hrefused, hstatus⟩ := explained_of_failure hout
  generalize hactions : actions w caches req = h at hrefused
  cases hrefused with
  | provider _ h q e =>
      have hs : ⟨.call q, .error e⟩ :: h <:+ actions w caches req := by
        rw [hactions]
      have hcall := eq_upstream_of_actions hs
      rw [hclient] at hcall
      refine ⟨h.length, .inl ⟨_, q, ?_⟩⟩
      rcases (client h.length).provider_cases q with ⟨hconnects, -⟩ | ⟨-, -, what', hunavailable⟩ |
        ⟨body, hbody, ⟨value, -, hok⟩ | ⟨thrown, what', hthrown, -⟩⟩
      · exact .inl hconnects
      · cases hcall.trans hunavailable
        cases hstatus
      · cases hcall.trans hok
      · exact .inr ⟨body, thrown, hbody, hthrown⟩
  | emptyList _ h what' hcat =>
      have hs : ⟨.call .listCurrencies, .ok []⟩ :: h <:+ actions w caches req := by
        rw [hactions]
      have hcall := eq_upstream_of_actions hs
      rw [hclient] at hcall
      refine ⟨h.length, .inr ?_⟩
      rcases (client h.length).provider_cases .listCurrencies with ⟨-, what', hother⟩ |
        ⟨-, -, what', hunavailable⟩ | ⟨body, hbody, ⟨value, hread, hok⟩ | ⟨-, what', -, hunexpected⟩⟩
      · cases hcall.trans hother
      · cases hcall.trans hunavailable
      · cases hcall.trans hok
        exact ⟨body, hbody, hread⟩
      · cases hcall.trans hunexpected
  | malformed r ex hrange =>
      obtain ⟨what', rfl⟩ := DateRange.construct_error hrange
      cases hstatus
  | _ => cases hstatus

/-- With a base URL that makes no URI or no session, a retry is asked of nobody: no status
is `UNAVAILABLE`. -/
theorem not_unavailable_of_not_connects (hclient : ∀ i, (w i).upstream = (client i).provider)
    (hnever : ∀ i path, ¬ (client i).Connects path) (what : Str) :
    outcome w caches req ≠ .error ⟨.unavailable, what⟩ := by
  intro hout
  obtain ⟨i, c, q, hconnects, -⟩ := unavailable_from_client hclient hout
  exact hnever i q.path hconnects

end Alone

/-! ## The points of a chart -/

/-- POCO yields each key of an object once. -/
def PocoJson.KeysOnce (json : PocoJson D) : Prop :=
  ∀ (body : Str) (object rates : Members), json.parse body = .ok (.object object) →
    object.getObject (str "rates") = some rates → (rates.map Prod.fst).Nodup

/-- Points as a chart of `range` needs them. -/
structure Chartable (range : DateRange) (points : List (ExchangeRate D)) : Prop where
  increasing : points.Pairwise fun point point' ↦ point.date < point'.date
  in_range : ∀ point ∈ points, range.Contains point.date

namespace FrankfurterClient

theorem payload_of_history_ok {client : FrankfurterClient D} (hkeys : client.json.KeysOnce)
    {source target : Str} {range : DateRange} {points : List (ExchangeRate D)}
    (h : client.history source target range = .ok points) :
    ∃ rates, client.RatesPayload (historyPath source target range) rates := by
  simp only [history, readHistory, parseObject, bind_eq_ok_iff, Thrown.translating_eq_ok_iff,
    Thrown.ofPoco_eq_ok_iff] at h
  obtain ⟨body, hget, object, ⟨document, hparse, hextract⟩, hrates⟩ := h
  cases document with
  | object members =>
      cases hextract
      split at hrates
      · cases hrates
      · next rates hobject =>
          exact ⟨rates, ⟨body, object, hget, hparse, hobject⟩, hkeys body object rates hparse hobject⟩
  | _ => cases hextract

theorem chartable_of_history {client : FrankfurterClient D} (hkeys : client.json.KeysOnce)
    {source target : Str} {range : DateRange} {points : List (ExchangeRate D)}
    (h : client.history source target range = .ok points) : Chartable range points := by
  obtain ⟨rates, hpayload⟩ := payload_of_history_ok hkeys h
  obtain ⟨pushed, hpushed, rfl⟩ := (history_ok_iff hpayload).mp h
  have hexact := exact_of_collect hpayload.keys_once hpushed
  exact ⟨hexact.increasing, hexact.in_range⟩

end FrankfurterClient

/-- The dates are the end of a key and have one length, whatever the codes are. -/
theorem Query.range_of_cacheKey {source target source' target' : Str} {range range' : DateRange}
    (h : (Query.history source target range).cacheKey =
      (Query.history source' target' range').cacheKey) : range = range' := by
  have hend : range.endDate.length = range'.endDate.length := by
    rw [length_of_isIsoDate range.end_iso, length_of_isIsoDate range'.end_iso]
  have hstart : range.startDate.length = range'.startDate.length := by
    rw [length_of_isIsoDate range.start_iso, length_of_isIsoDate range'.start_iso]
  rw [cacheKey, cacheKey] at h
  obtain ⟨hrest, hends⟩ := List.append_inj' h hend
  obtain ⟨hrest', -⟩ := List.append_inj' hrest rfl
  obtain ⟨-, hstarts⟩ := List.append_inj' hrest' hstart
  exact DateRange.ext hstarts hends

section Runs

variable [Double D] {limits : Limits} {schedule : Schedule D}

/-- Every action of the run finds a client behind the provider. -/
def ClientsOnly (schedule : Schedule D) : Prop :=
  ∀ i w, .act i w ∈ schedule →
    ∃ client : FrankfurterClient D, client.json.KeysOnce ∧ w.upstream = client.provider

theorem chartable_of_call (hclients : ClientsOnly schedule) {i : ℕ} {w : Tick D}
    {source target : Str} {range : DateRange} {points : List (ExchangeRate D)}
    (h : .acted i w (.call (.history source target range)) (.ok points) ∈
      (limits.run schedule).log) : Chartable range points := by
  obtain ⟨hanswer, hact⟩ := eq_upstream_of_call h
  obtain ⟨client, hkeys, hclient⟩ := hclients i w hact
  rw [hclient] at hanswer
  exact FrankfurterClient.chartable_of_history hkeys
    (FrankfurterClient.provider_eq_ok_iff.mp hanswer.symm)

theorem chartable_of_obtained (hclients : ClientsOnly schedule) {i : ℕ} {l : Log D}
    (hs : l <:+ (limits.run schedule).log) {source target : Str} {range : DateRange}
    {points : List (ExchangeRate D)}
    (hobtained : Obtained (project i l) (.history source target range) points) :
    Chartable range points := by
  rcases hobtained with ⟨h', hproject⟩ | ⟨h', hproject⟩
  · obtain ⟨w, l₁, hget, _⟩ := exists_acted_of_project hproject
    have hget' := hget.trans hs
    obtain ⟨j, w₀, l₀, hput, _⟩ := exists_put_of_hit hget'
    have hput' := hput.trans ((List.suffix_cons _ _).trans hget')
    obtain ⟨q, hkey, _, w₁, l₂, hcall⟩ := exists_call_of_put hput'
    have hcall' := (hcall.trans ((List.suffix_cons _ _).trans hput')).mem List.mem_cons_self
    cases q with
    | history source' target' range' =>
        rw [Query.range_of_cacheKey hkey]
        exact chartable_of_call hclients hcall'
  · obtain ⟨w, l₁, hput, hproject₁⟩ := exists_acted_of_project hproject
    obtain ⟨w₁, l₂, hcall, _⟩ := exists_acted_of_project hproject₁
    have hcall' := (hcall.trans ((List.suffix_cons _ _).trans (hput.trans hs))).mem
      List.mem_cons_self
    exact chartable_of_call hclients hcall'

/-- In every run the points of a `GetHistory` response are in the order of their dates, no
date twice, and none is out of the range that was asked for. -/
theorem history_responses_chartable (hclients : ClientsOnly schedule) {i : ℕ} {before : Log D}
    {response : HistoryResponse D}
    (hs : .responded i (.ok (.getHistory response)) :: before <:+ (limits.run schedule).log) :
    ∃ r, requestOf i before = some (.getHistory r) ∧
      (response.points.Pairwise fun point point' ↦ point.date < point'.date) ∧
      ∀ point ∈ response.points, ¬ point.date < r.startDate ∧ ¬ r.endDate < point.date := by
  obtain ⟨req, hreq, hanswers⟩ := (legal_log limits schedule).result holds_serve hs
  obtain ⟨r, range, points, rfl, hrange, hobtained, rfl⟩ := hanswers
  obtain ⟨hstart, hend⟩ := DateRange.construct_eq_ok.mp hrange
  have hchart := chartable_of_obtained hclients ((List.suffix_cons _ _).trans hs) hobtained
  refine ⟨r, hreq, List.pairwise_map.mpr hchart.increasing, ?_⟩
  intro point hpoint
  obtain ⟨rate, hrate, rfl⟩ := List.mem_map.mp hpoint
  rw [← hstart, ← hend]
  exact hchart.in_range rate hrate

end Runs

end CurrencyConverter
