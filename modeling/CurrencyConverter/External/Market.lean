import CurrencyConverter.External.HistoryExtraction
import CurrencyConverter.External.Paths

/-!
# The market behind the client

A market knows the currencies and what it quotes for a pair on each day.  A site is
honest about it when each of its `200` bodies is what the market says to the query that
the path asks; what the client extracts from the bodies is then the market's own answer,
for each of the three calls.
-/

namespace CurrencyConverter

open Collecting Raising

variable {D : Type}

/-! ## What a market says -/

structure Market (D : Type) where
  currencies : List Currency
  quote : Str → Str → Str → Option D
  lastDay : Str

namespace Market

/-- `value` is the answer of the market to the query. -/
def Tells (market : Market D) : {c : CacheId} → Query c → Stored D c → Prop
  | _, .listCurrencies, list => list = market.currencies
  | _, .latestRate source target, rate => ∃ r,
      market.quote source target market.lastDay = some r ∧
        rate = ⟨source, target, r, market.lastDay⟩
  | _, .history source target range, points =>
      (points.Pairwise fun point point' ↦ point.date < point'.date) ∧
      ∀ point, point ∈ points ↔ range.Contains point.date ∧ point.base = source ∧
        point.quote = target ∧ market.quote source target point.date = some point.rate

/-- There is no other answer. -/
theorem Tells.unique {market : Market D} {c : CacheId} {query : Query c} {value value' : Stored D c}
    (h : market.Tells query value) (h' : market.Tells query value') : value = value' := by
  cases query with
  | listCurrencies => exact Eq.trans h (Eq.symm h')
  | latestRate source target =>
      obtain ⟨r, hr, rfl⟩ := h
      obtain ⟨r', hr', rfl⟩ := h'
      cases hr.symm.trans hr'
      rfl
  | history source target range =>
      obtain ⟨hincreasing, hmem⟩ := h
      obtain ⟨hincreasing', hmem'⟩ := h'
      apply eq_of_increasing hincreasing hincreasing'
      intro point
      rw [hmem, hmem']

end Market

/-! ## Honest bodies -/

/-- An object of rates has the target exactly where there is a quote, as a number. -/
inductive Shows (json : PocoJson D) (target : Str) (rates : Members) : Option D → Prop
  | nothing (hlookup : rates.lookup target = none) : Shows json target rates none
  | rate {value : Json} {r : D} (hlookup : rates.lookup target = some value)
      (hconvert : json.convertDouble value = .ok r) : Shows json target rates (some r)

/-- The object names the currencies of the market, in its order. -/
def NamesCurrencies (json : PocoJson D) (market : Market D) (object : Members) : Prop :=
  List.Forall₂ (fun entry cur ↦ entry.1 = cur.code ∧ json.toString entry.2 = .ok cur.fullName)
    object market.currencies

structure ShowsLastDay (json : PocoJson D) (market : Market D) (source target : Str)
    (object : Members) : Prop where
  date : json.convertString (object.get (str "date")) = .ok market.lastDay
  rates : ∃ rates, object.getObject (str "rates") = some rates ∧
    Shows json target rates (market.quote source target market.lastDay)

/-- Every quote of the range is there and nothing else of the range is.  The site may add
days out of the range, about which nothing is said. -/
structure ShowsDays (json : PocoJson D) (market : Market D) (source target : Str)
    (range : DateRange) (rates : Members) : Prop where
  keys_once : (rates.map Prod.fst).Nodup
  complete : ∀ day r, range.Contains day → market.quote source target day = some r →
    day ∈ rates.map Prod.fst
  sound : ∀ entry ∈ rates, range.Contains entry.1 → ∃ dayRates, entry.2 = .object dayRates ∧
    Shows json target dayRates (market.quote source target entry.1)

/-- The object of a body is about the query. -/
def Market.About (market : Market D) (json : PocoJson D) :
    {c : CacheId} → Query c → Members → Prop
  | _, .listCurrencies, object => NamesCurrencies json market object
  | _, .latestRate source target, object => ShowsLastDay json market source target object
  | _, .history source target range, object => ∃ rates,
      object.getObject (str "rates") = some rates ∧
        ShowsDays json market source target range rates

namespace FrankfurterClient

/-- The site answers for the market to whoever asks, through all that POCO does. -/
def Honest (client : FrankfurterClient D) (market : Market D) : Prop :=
  ∀ (path body : Str) (c : CacheId) (query : Query c), readPath path = some ⟨c, query⟩ →
    client.get path = .ok body → ∃ object, client.json.parse body = .ok (.object object) ∧
      market.About client.json query object

variable {client : FrankfurterClient D} {market : Market D} {source target : Str}
  {range : DateRange}

theorem parseObject_eq_ok {body : Str} {object : Members}
    (h : client.json.parse body = .ok (.object object)) : client.parseObject body = .ok object := by
  rw [parseObject, h]
  rfl

/-! ## The catalog -/

theorem currencyOf_of_names {entry : Str × Json} {cur : Currency} (hcode : entry.1 = cur.code)
    (hname : client.json.toString entry.2 = .ok cur.fullName) :
    client.currencyOf entry = .ok (some cur) := by
  rw [currencyOf, hname, hcode]
  rfl

theorem readCurrencies_of_names {body : Str} {object : Members}
    (hparse : client.json.parse body = .ok (.object object))
    (hnames : NamesCurrencies client.json market object) :
    client.readCurrencies body = .ok market.currencies := by
  have hcollect : collect client.currencyOf object = .ok market.currencies :=
    collect_of_forall₂ (hnames.imp fun _ _ h ↦ currencyOf_of_names h.1 h.2)
  simp only [readCurrencies, Thrown.translating_eq_ok_iff, bind_eq_ok_iff,
    Thrown.ofPoco_eq_ok_iff]
  exact ⟨object, parseObject_eq_ok hparse, hcollect⟩

/-! ## The latest rate -/

theorem readLatestRate_eq_ok_iff {body : Str} {object rates : Members} {date : Str}
    (hparse : client.json.parse body = .ok (.object object))
    (hdate : client.json.convertString (object.get (str "date")) = .ok date)
    (hrates : object.getObject (str "rates") = some rates) {q : Option D}
    (hshows : Shows client.json target rates q) {rate : ExchangeRate D} :
    client.readLatestRate source target body = .ok rate ↔
      ∃ r, q = some r ∧ rate = ⟨source, target, r, date⟩ := by
  simp only [readLatestRate, Thrown.translating_eq_ok_iff, bind_eq_ok_iff,
    Thrown.ofPoco_eq_ok_iff, parseObject_eq_ok hparse, hdate, hrates, Option.bind_some,
    Except.ok.injEq, exists_eq_left']
  cases hshows with
  | nothing hlookup =>
      rw [hlookup]
      exact ⟨nofun, fun ⟨r, hr, _⟩ ↦ by cases hr⟩
  | rate hlookup hconvert =>
      rw [hlookup]
      simp only [hconvert, bind_eq_ok_iff, Thrown.ofPoco_eq_ok_iff, Except.ok.injEq,
        exists_eq_left', Option.some.injEq]
      exact ⟨fun h ↦ (Except.ok.inj h).symm, fun h ↦ congrArg Except.ok h.symm⟩

/-! ## The history -/

/-- A turn in the range pushes what the market quotes for the day. -/
theorem pointOf_of_shows {entry : Str × Json} {dayRates : Members} {q : Option D}
    (hin : range.Contains entry.1) (hobject : entry.2 = .object dayRates)
    (hshows : Shows client.json target dayRates q) :
    client.pointOf source target range entry =
      .ok (q.map fun r ↦ ⟨source, target, r, entry.1⟩) := by
  have hno : ¬ (entry.1 < range.startDate ∨ range.endDate < entry.1) := by
    rw [DateRange.Contains] at hin
    tauto
  obtain ⟨day, value⟩ := entry
  cases hobject
  rw [pointOf, if_neg hno]
  cases hshows with
  | nothing hlookup =>
      simp [PocoJson.extractObject, hlookup, bind, Except.bind, pure, Except.pure]
  | rate hlookup hconvert =>
      simp [PocoJson.extractObject, hlookup, hconvert, bind, Except.bind, pure, Except.pure]

theorem history_of_shows {rates : Members}
    (hpayload : client.RatesPayload (historyPath source target range) rates)
    (hshows : ShowsDays client.json market source target range rates) :
    ∃ points, client.history source target range = .ok points ∧
      market.Tells (.history source target range) points := by
  have hturn : ∀ entry ∈ rates, range.Contains entry.1 →
      client.pointOf source target range entry = .ok ((market.quote source target entry.1).map
        fun r ↦ ⟨source, target, r, entry.1⟩) := by
    intro entry hentry hin
    obtain ⟨dayRates, hobject, hday⟩ := hshows.sound entry hentry hin
    exact pointOf_of_shows hin hobject hday
  have hok : ∀ entry ∈ rates, ∃ o, client.pointOf source target range entry = .ok o := by
    intro entry hentry
    by_cases hin : range.Contains entry.1
    · exact ⟨_, hturn entry hentry hin⟩
    · exact ⟨none, pointOf_of_out hin⟩
  have hcollect := collect_ok_iff.mpr ⟨hok, rfl⟩
  refine ⟨_, (history_ok_iff hpayload).mpr ⟨_, hcollect, rfl⟩,
    pairwise_sortBy (nodup_dates hshows.keys_once hcollect), ?_⟩
  intro point
  rw [mem_sortBy, mem_collect hcollect]
  constructor
  · rintro ⟨entry, hentry, hread⟩
    obtain ⟨hin, hquotes⟩ := pointOf_some_iff.mp hread
    rw [hturn entry hentry hin] at hread
    obtain ⟨r, hr, rfl⟩ := Option.map_eq_some_iff.mp (Except.ok.inj hread)
    exact ⟨hin, rfl, rfl, hr⟩
  · obtain ⟨base, quote, r, day⟩ := point
    rintro ⟨hin, rfl, rfl, hr⟩
    obtain ⟨entry, hentry, rfl⟩ := List.mem_map.mp (hshows.complete day r hin hr)
    refine ⟨entry, hentry, ?_⟩
    rw [hturn entry hentry hin, hr]
    rfl

/-! ## The calls -/

variable {c : CacheId} {query : Query c}

/-- A body in hand, the call ends as the market says: with its answer, or with an error
where it has none. -/
theorem answer_of_honest (hhonest : client.Honest market) (hplain : query.Plain) {body : Str}
    (hbody : client.Delivers query.path body) {value : Stored D c} :
    client.answer query = .ok value ↔ market.Tells query value := by
  have hget := get_eq_ok_iff.mpr hbody
  obtain ⟨object, hparse, habout⟩ :=
    hhonest query.path body c query (Query.readPath_path hplain) hget
  rw [answer_of_delivers hbody]
  cases query with
  | listCurrencies =>
      rw [read, readCurrencies_of_names hparse habout, Market.Tells]
      exact ⟨fun h ↦ (Except.ok.inj h).symm, fun h ↦ congrArg Except.ok (Eq.symm h)⟩
  | latestRate source target =>
      obtain ⟨rates, hrates, hshows⟩ := habout.rates
      exact readLatestRate_eq_ok_iff hparse habout.date hrates hshows
  | history source target range =>
      obtain ⟨rates, hrates, hshows⟩ := habout
      have hpayload : client.RatesPayload (historyPath source target range) rates :=
        ⟨⟨body, object, hget, hparse, hrates⟩, hshows.keys_once⟩
      obtain ⟨points, hpoints, htells⟩ := history_of_shows hpayload hshows
      have hanswer : client.history source target range =
          client.read (.history source target range) body := answer_of_delivers hbody
      have hread := hanswer.symm.trans hpoints
      rw [hread]
      constructor
      · rintro ⟨rfl⟩
        exact htells
      · exact fun h ↦ congrArg Except.ok (htells.unique h)

theorem delivers_of_answer {value : Stored D c} (h : client.answer query = .ok value) :
    ∃ body, client.Delivers query.path body := by
  rw [answer_eq, bind_eq_ok_iff] at h
  obtain ⟨body, hbody, -⟩ := h
  exact ⟨body, get_eq_ok_iff.mp hbody⟩

theorem tells_of_answer (hhonest : client.Honest market) (hplain : query.Plain)
    {value : Stored D c} (h : client.answer query = .ok value) : market.Tells query value := by
  obtain ⟨body, hbody⟩ := delivers_of_answer h
  exact (answer_of_honest hhonest hplain hbody).mp h

/-- Behind an honest site the client refines the market: a call succeeds exactly where a
`200` body arrives and the market has an answer, and gives that answer. -/
theorem client_refines_market (hhonest : client.Honest market) {c : CacheId} (query : Query c)
    (hplain : query.Plain) (value : Stored D c) : client.answer query = .ok value ↔
      (∃ body, client.Delivers query.path body) ∧ market.Tells query value := by
  constructor
  · intro hanswer
    exact ⟨delivers_of_answer hanswer, tells_of_answer hhonest hplain hanswer⟩
  · rintro ⟨⟨body, hbody⟩, htells⟩
    exact (answer_of_honest hhonest hplain hbody).mpr htells

end FrankfurterClient

/-! ## A site with three pages -/

def currenciesPage : Str × Str :=
  (str "/v1/currencies", str "\x7b\"EUR\":\"Euro\",\"USD\":\"United States Dollar\"\x7d")

def latestPage : Str × Str :=
  (str "/v1/latest?base=USD&symbols=EUR",
    str "\x7b\"date\":\"2024-03-01\",\"rates\":\x7b\"EUR\":2\x7d\x7d")

/-- The second of March is no trading day, so the first is there, out of the range. -/
def historyPage : Str × Str :=
  (str "/v1/2024-03-02..2024-03-04?base=USD&symbols=EUR",
    str ("\x7b\"rates\":\x7b\"2024-03-01\":\x7b\"EUR\":2\x7d," ++
      "\"2024-03-04\":\x7b\"EUR\":3\x7d\x7d\x7d"))

/-- Any other path is not found. -/
def threePages : PocoNet where
  uri := siteUri
  httpsSession _ _ := .ok ()
  httpSession _ _ := .ok ()
  sendRequest _ _ := .ok ()
  receiveResponse _ request :=
    .ok (if ([currenciesPage, latestPage, historyPage].lookup request).isSome then 200 else 404)
  copyStream _ request :=
    .ok (([currenciesPage, latestPage, historyPage].lookup request).getD (str "not found"))

def historyRates : Members :=
  [(str "2024-03-01", .object [(str "EUR", .number (str "2"))]),
    (str "2024-03-04", .object [(str "EUR", .number (str "3"))])]

def threeDocuments : List (Str × Json) :=
  [(currenciesPage.2, .object [(str "EUR", .string (str "Euro")),
      (str "USD", .string (str "United States Dollar"))]),
    (latestPage.2, .object [(str "date", .string (str "2024-03-01")),
      (str "rates", .object [(str "EUR", .number (str "2"))])]),
    (historyPage.2, .object [(str "rates", .object historyRates)])]

def threePagesClient : FrankfurterClient ℚ :=
  ⟨siteUrl, threePages, { pocoJson .null with
    parse := fun body ↦ match threeDocuments.lookup body with
      | some document => .ok document
      | none => .error ⟨str "JSON syntax error"⟩ }⟩

/-- A dollar is two euros on the first of March and three on the fourth. -/
def marchMarket : Market ℚ where
  currencies := [⟨str "EUR", str "Euro"⟩, ⟨str "USD", str "United States Dollar"⟩]
  quote base target day :=
    if base = str "USD" ∧ target = str "EUR" then
      [(str "2024-03-01", ((2 : ℕ) : ℚ)), (str "2024-03-04", ((3 : ℕ) : ℚ))].lookup day
    else none
  lastDay := str "2024-03-01"

def earlyMarch : DateRange :=
  ⟨str "2024-03-02", str "2024-03-04", by decide, by decide, by decide⟩

namespace FrankfurterClient

theorem page_of_get {path body : Str} (h : threePagesClient.get path = .ok body) :
    (path, body) ∈ [currenciesPage, latestPage, historyPage] := by
  obtain ⟨uri, huri, -, -, hstatus, hbody⟩ := get_eq_ok_iff.mp h
  have hrequest : uri.pathAndQuery = path := by
    have huri' : siteUri (siteUrl ++ path) = .ok uri := huri
    rw [siteUri] at huri'
    split at huri'
    · cases huri'
    · cases huri'
      exact List.drop_left
  have hfound : [currenciesPage, latestPage, historyPage].lookup uri.request = some body := by
    have hstatus' : Except.ok (ε := PocoException) (if ([currenciesPage, latestPage,
      historyPage].lookup uri.request).isSome then 200 else 404) = .ok 200 := hstatus
    have hbody' : Except.ok (ε := PocoException) (([currenciesPage, latestPage,
      historyPage].lookup uri.request).getD (str "not found")) = .ok body := hbody
    cases hlookup : [currenciesPage, latestPage, historyPage].lookup uri.request with
    | none =>
        rw [hlookup] at hstatus'
        cases hstatus'
    | some found =>
        rw [hlookup] at hbody'
        exact congrArg some (Except.ok.inj hbody')
  rw [Uri.request, hrequest] at hfound
  split at hfound
  · cases hfound
  · obtain ⟨before, after, hpages, -⟩ := List.lookup_eq_some_iff.mp hfound
    rw [hpages]
    exact List.mem_append_right before List.mem_cons_self

theorem honest_threePages : threePagesClient.Honest marchMarket := by
  intro path body c query hread hget
  have hpage := page_of_get hget
  simp only [List.mem_cons, List.not_mem_nil, or_false] at hpage
  rcases hpage with hpage | hpage | hpage
  · obtain ⟨rfl, rfl⟩ := Prod.mk.inj hpage
    have hquery : readPath currenciesPage.1 = some ⟨_, .listCurrencies⟩ := rfl
    cases hquery.symm.trans hread
    refine ⟨_, rfl, ?_⟩
    exact .cons ⟨rfl, rfl⟩ (.cons ⟨rfl, rfl⟩ .nil)
  · obtain ⟨rfl, rfl⟩ := Prod.mk.inj hpage
    have hquery : readPath latestPage.1 = some ⟨_, .latestRate (str "USD") (str "EUR")⟩ := rfl
    cases hquery.symm.trans hread
    exact ⟨_, rfl, rfl, _, rfl, .rate rfl rfl⟩
  · obtain ⟨rfl, rfl⟩ := Prod.mk.inj hpage
    have hquery : readPath historyPage.1 =
        some ⟨_, .history (str "USD") (str "EUR") earlyMarch⟩ := rfl
    cases hquery.symm.trans hread
    refine ⟨_, rfl, historyRates, rfl, by decide, ?_, ?_⟩
    · intro day r _ hquote
      obtain ⟨before, after, hdays, -⟩ := List.lookup_eq_some_iff.mp hquote
      have hmem : (day, r) ∈
          [(str "2024-03-01", ((2 : ℕ) : ℚ)), (str "2024-03-04", ((3 : ℕ) : ℚ))] := by
        rw [hdays]
        exact List.mem_append_right before List.mem_cons_self
      simp only [List.mem_cons, List.not_mem_nil, or_false, Prod.mk.injEq] at hmem
      rcases hmem with ⟨rfl, -⟩ | ⟨rfl, -⟩
      · exact List.mem_cons_self
      · exact List.mem_cons_of_mem _ List.mem_cons_self
    · intro entry hentry hin
      simp only [historyRates, List.mem_cons, List.not_mem_nil, or_false] at hentry
      rcases hentry with rfl | rfl
      · exact absurd hin (by decide)
      · exact ⟨_, rfl, .rate rfl rfl⟩

/-- The first of March is not in the answer for the days after it. -/
theorem client_refines_market_in_march :
    (∃ body, threePagesClient.Delivers
      (Query.history (str "USD") (str "EUR") earlyMarch).path body) ∧
      marchMarket.Tells (.history (str "USD") (str "EUR") earlyMarch)
        [⟨str "USD", str "EUR", (3 : ℕ), str "2024-03-04"⟩] := by
  have hplain : (Query.history (str "USD") (str "EUR") earlyMarch).Plain := by
    constructor <;> decide
  exact (client_refines_market honest_threePages _ hplain _).mp (by with_unfolding_all rfl)

end FrankfurterClient

end CurrencyConverter
