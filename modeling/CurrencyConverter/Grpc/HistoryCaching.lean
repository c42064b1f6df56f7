import CurrencyConverter.Cache.Retention
import CurrencyConverter.Grpc.Provenance

/-!
# Mandatory caching of history

Two history requests for one tuple share a cache key.  While the entry is young
enough and fewer than `max_elements` other tuples were used since, a lookup
hits, and a handler that has hit can only respond with what it found.
-/

namespace CurrencyConverter

open AtomicProgram CoherentCache RecencyList TimeAndSizeBoundedCache

variable {D : Type}

/-- Upper-cased source and target, start and end. -/
abbrev HistoryTuple := Str × Str × Str × Str

def HistoryRequest.tuple (r : HistoryRequest) : HistoryTuple :=
  (toUpper r.sourceCurrency, toUpper r.targetCurrency, r.startDate, r.endDate)

def Request.historyTuple : Request D → Option HistoryTuple
  | .getHistory r => some r.tuple
  | _ => none

def Query.tuple : Query .history → HistoryTuple
  | .history source target range => (source, target, range.startDate, range.endDate)

def HistoryTuple.cacheKey (q : HistoryTuple) : Str :=
  q.1 ++ str "|" ++ q.2.1 ++ str "|" ++ q.2.2.1 ++ str "|" ++ q.2.2.2

/-- The tuple whose entry an event puts or hits; `l` is the log before it. -/
def touchedTuple (e : ServerEvent D) (l : Log D) : Option HistoryTuple :=
  match e with
  | .acted i _ (.cachePut .history _ _) _ => (requestOf i l).bind Request.historyTuple
  | .acted i _ (.cacheGet .history _) (some _) => (requestOf i l).bind Request.historyTuple
  | _ => none

/-- The tuples other than `q` put or hit since the latest touch of `q`. -/
def othersSince (q : HistoryTuple) : Log D → Finset HistoryTuple
  | [] => ∅
  | e :: l =>
      match touchedTuple e l with
      | none => othersSince q l
      | some q' => if q' = q then ∅ else insert q' (othersSince q l)

def historyResponse (r : HistoryRequest) (points : List (ExchangeRate D)) : Outcome D :=
  .ok (.getHistory ⟨r.sourceCurrency, r.targetCurrency,
    points.map fun point ↦ ⟨point.date, point.rate⟩⟩)

def LatestPut (q : HistoryTuple) (l : Log D) (points : List (ExchangeRate D)) : Prop :=
  ∃ j w key l₀, .acted j w (.cachePut .history key points) () :: l₀ <:+ l ∧
    (requestOf j l₀).bind Request.historyTuple = some q ∧
    ∀ j' w' key' points' l', .acted j' w' (.cachePut .history key' points') () :: l' <:+ l →
      (requestOf j' l').bind Request.historyTuple = some q → l' <:+ l₀

theorem Query.cacheKey_tuple (q : Query .history) : q.tuple.cacheKey = q.cacheKey := by
  cases q
  rfl

theorem Request.query_eq_history {req : Request D} {q : Query .history} :
    req.query = some ⟨.history, q⟩ ↔ req.historyTuple = some q.tuple := by
  cases q with
  | history source target range =>
      cases req with
      | listCurrencies => simp [query, historyTuple]
      | convert r => simp [query, historyTuple]
      | getConstraints => simp [query, historyTuple]
      | getHistory r =>
          constructor
          · intro h
            obtain ⟨range', hrange, heq⟩ := query_getHistory h
            cases heq
            obtain ⟨hstart, hend⟩ := DateRange.construct_eq_ok.mp hrange
            rw [historyTuple, HistoryRequest.tuple, Query.tuple, hstart, hend]
          · intro h
            have htuple := Option.some.inj h
            simp only [HistoryRequest.tuple, Query.tuple, Prod.mk.injEq] at htuple
            obtain ⟨rfl, rfl, hstart, hend⟩ := htuple
            simp [query, DateRange.construct_eq_ok.mpr ⟨hstart.symm, hend.symm⟩]

section Runs

variable [Double D] {limits : Limits} {schedule : Schedule D} {l : Log D} {i : ℕ}

omit [Double D] in
theorem historyTuple_of_asks {req : Request D} {h : History D} {q : Query .history}
    (hreq : requestOf i l = some req) (hasks : Asks req h q) :
    (requestOf i l).bind Request.historyTuple = some q.tuple := by
  rcases hasks.2.1 with hc | hquery
  · cases hc
  · rw [hreq]
    exact Request.query_eq_history.mp hquery

theorem touched_cases {e : ServerEvent D} (hs : e :: l <:+ (limits.run schedule).log)
    {op : Op Str (Stored D .history) ℤ} (hop : opOf .history e = some op) :
    ((((limits.empty D .history).after (cacheOps .history l)).record op).touched = none ∧
      touchedTuple e l = none) ∨
    ∃ q : Query .history,
      (((limits.empty D .history).after (cacheOps .history l)).record op).touched =
        some q.cacheKey ∧ touchedTuple e l = some q.tuple := by
  cases e with
  | started j q => cases hop
  | responded j out => cases hop
  | tended b =>
      obtain ⟨c, clock⟩ := b
      by_cases hc : c = .history
      · subst hc
        cases hop
        exact Or.inl ⟨rfl, rfl⟩
      · simp [opOf, hc] at hop
  | acted j w a r =>
      cases a with
      | call q => cases hop
      | systemClock => cases hop
      | cachePut c key v =>
          by_cases hc : c = .history
          · subst hc
            cases hop
            obtain ⟨req, hreq, q, h', rfl, _, hasks⟩ := permitted hs
            exact Or.inr ⟨q, rfl, historyTuple_of_asks hreq hasks⟩
          · simp [opOf, hc] at hop
      | cacheGet c key =>
          by_cases hc : c = .history
          · subst hc
            cases hop
            have hanswer := (legal_log limits schedule).answered hs
            have hreturned : r = (((limits.empty D .history).after
                (cacheOps .history l)).step (.get w.now key)).1 := by
              rw [← sharedAfter_eq_after]
              exact hanswer
            cases r with
            | none => exact Or.inl ⟨touched_of_miss _ hreturned.symm, rfl⟩
            | some v =>
                obtain ⟨req, hreq, q, rfl, hasks⟩ := permitted hs
                exact Or.inr ⟨q, touched_of_hit _ hreturned.symm, historyTuple_of_asks hreq hasks⟩
          · simp [opOf, hc] at hop

omit [Double D] in
theorem touchedTuple_of_opOf_none {e : ServerEvent D} (hop : opOf .history e = none) :
    touchedTuple e l = none := by
  unfold touchedTuple
  split
  · simp [opOf] at hop
  · simp [opOf] at hop
  · rfl

theorem distinctSince_subset (hs : l <:+ (limits.run schedule).log) (q : HistoryTuple) :
    distinctSince Call.touched q.cacheKey
        ((limits.empty D .history).calls (cacheOps .history l)) ⊆
      (othersSince q l).image HistoryTuple.cacheKey := by
  induction l with
  | nil => exact Finset.empty_subset _
  | cons e l ih =>
      have ih' := ih ((List.suffix_cons _ _).trans hs)
      cases hop : opOf .history e with
      | none =>
          rw [cacheOps, List.filterMap_cons_none hop, othersSince, touchedTuple_of_opOf_none hop]
          exact ih'
      | some op =>
          rw [cacheOps, List.filterMap_cons_some hop, calls_cons, othersSince]
          rcases touched_cases hs hop with ⟨hnone, htuple⟩ | ⟨q', hkey, htuple⟩
          · rw [cacheOps] at hnone
            rw [distinctSince_cons_none hnone, htuple]
            exact ih'
          · rw [cacheOps] at hkey
            rw [htuple]
            by_cases hsame : q'.cacheKey = q.cacheKey
            · rw [distinctSince_cons_same (hkey.trans (congrArg some hsame))]
              exact Finset.empty_subset _
            · have hne : q'.tuple ≠ q := by
                rintro rfl
                exact hsame q'.cacheKey_tuple.symm
              rw [distinctSince_cons_ne hkey hsame]
              simp only [hne, if_false]
              rw [Finset.image_insert, q'.cacheKey_tuple]
              exact Finset.insert_subset_insert _ ih'

/-- A lookup of a young enough entry behind few enough other tuples hits what was
put last under its key. -/
theorem hit_of_recent_put (hclock : NonDecreasing (cacheOps .history (limits.run schedule).log))
    {j : ℕ} {q : Query .history} {w w₀ : Tick D} {found : Option (Stored D .history)}
    {v₀ : Stored D .history} {l₀ : Log D}
    (hlookup : .acted i w (.cacheGet .history q.cacheKey) found :: l <:+ (limits.run schedule).log)
    (hput : .acted j w₀ (.cachePut .history q.cacheKey v₀) () :: l₀ <:+ l)
    (hage : w.now - w₀.now ≤ limits.historyMaxAge * 60000000000)
    (hfew : (othersSince q.tuple l).card < limits.historyMaxElements) :
    ∃ t v, found = some v ∧ lastPut q.cacheKey (cacheOps .history l) = some (t, v) := by
  have hl : l <:+ (limits.run schedule).log := (List.suffix_cons _ _).trans hlookup
  have hops : .get w.now q.cacheKey :: cacheOps .history l <:+
      cacheOps .history (limits.run schedule).log := hlookup.filterMap (opOf .history)
  have hclock' : NonDecreasing (.get w.now q.cacheKey :: cacheOps .history l) :=
    List.Pairwise.sublist hops.sublist hclock
  have hmem : .put w₀.now q.cacheKey v₀ ∈ cacheOps .history l :=
    List.mem_filterMap.mpr ⟨_, hput.mem List.mem_cons_self, opOf_eq_put.mpr ⟨j, w₀, rfl, rfl⟩⟩
  obtain ⟨t, v, hlast⟩ := exists_lastPut_of_mem hmem
  have hle : w₀.now ≤ t := le_of_lastPut (List.pairwise_cons.mp hclock').2 hmem hlast
  have hdistinct : (distinctSince Call.touched q.cacheKey
      ((limits.empty D .history).calls (cacheOps .history l))).card <
        limits.maxElements .history := by
    have hcard := Finset.card_le_card (distinctSince_subset hl q.tuple)
    rw [q.cacheKey_tuple] at hcard
    exact (hcard.trans Finset.card_image_le).trans_lt hfew
  have hhit := hit_of_retained (limits.maxAge .history) (limits.maxElements_pos .history) hclock'
    hlast (by change w.now - t ≤ limits.historyMaxAge * 60000000000; omega) hdistinct
  have hanswer : found = (((limits.empty D .history).after (cacheOps .history l)).step
      (.get w.now q.cacheKey)).1 := by
    rw [← sharedAfter_eq_after]
    exact (legal_log limits schedule).answered hlookup
  exact ⟨t, v, hanswer.trans hhit, hlast⟩

theorem latestPut_of_lastPut (hcodes : CodesWithoutBar (limits.run schedule).log)
    {q : Query .history} (hq : ∀ code ∈ q.codes, bar ∉ code) {t : ℤ} {v : Stored D .history}
    (hl : l <:+ (limits.run schedule).log)
    (hlast : lastPut q.cacheKey (cacheOps .history l) = some (t, v)) : LatestPut q.tuple l v := by
  obtain ⟨j, w, l₀, hput, _, hlatest⟩ := exists_put_of_lastPut hlast
  have hput' := hput.trans hl
  refine ⟨j, w, q.cacheKey, l₀, hput, ?_, ?_⟩
  · obtain ⟨req, hreq, q', h', hkey, hproject, hasks⟩ := permitted hput'
    have hknown : ∀ code ∈ q'.codes, Known code (project j l₀) := by
      intro code hcode
      rw [hproject]
      exact (hasks.2.2 code hcode).mono ((List.suffix_cons _ _).trans (List.suffix_cons _ _))
    have hq' := hcodes.codes ((List.suffix_cons _ _).trans hput') hknown
    rw [Query.eq_of_cacheKey hq hq' hkey]
    exact historyTuple_of_asks hreq hasks
  · intro j' w' key' v' l' hs htuple
    obtain ⟨req, hreq, q', h', rfl, hproject, hasks⟩ := permitted (hs.trans hl)
    have hsame : q'.tuple = q.tuple :=
      Option.some.inj ((historyTuple_of_asks hreq hasks).symm.trans htuple)
    rw [← q'.cacheKey_tuple, hsame, q.cacheKey_tuple] at hs
    exact hlatest j' w' v' l' hs

/-- A request that ends with a hit on its own tuple answers what it found. -/
theorem eq_historyResponse_of_answers {r : HistoryRequest} {q : Query .history}
    (htuple : r.tuple = q.tuple) {points : List (ExchangeRate D)} {h : History D} {out : Outcome D}
    (hanswers : Answers (.getHistory r) (⟨.cacheGet .history q.cacheKey, some points⟩ :: h) out) :
    out = historyResponse r points := by
  cases out with
  | error status =>
      have hquery : (Request.getHistory r : Request D).query = some ⟨.history, q⟩ :=
        Request.query_eq_history.mpr (congrArg some htuple)
      exact absurd rfl (hanswers .history q points _ hquery)
  | ok response =>
      cases response with
      | listCurrencies currencies => cases hanswers.1
      | convert response =>
          obtain ⟨_, _, ⟨⟩, _⟩ := hanswers
      | getConstraints response => cases hanswers
      | getHistory response =>
          obtain ⟨_, range, points', ⟨⟩, _, hobtained, rfl⟩ := hanswers
          rw [hobtained.eq_of_hit, historyResponse]

/-- A history request whose tuple was put recently makes no call of the provider
and responds with the points put last. -/
theorem mandatory_history_caching (limits : Limits) (schedule : Schedule D)
    (hcodes : CodesWithoutBar (limits.run schedule).log)
    (hclock : NonDecreasing (cacheOps .history (limits.run schedule).log))
    {i j : ℕ} {r r₀ : HistoryRequest} {w w₀ : Tick D} {key key₀ : Str}
    {found : Option (Stored D .history)} {v₀ : Stored D .history} {l l₀ : Log D}
    (hlookup : .acted i w (.cacheGet .history key) found :: l <:+ (limits.run schedule).log)
    (hreq : requestOf i l = some (.getHistory r))
    (hput : .acted j w₀ (.cachePut .history key₀ v₀) () :: l₀ <:+ l)
    (hreq₀ : requestOf j l₀ = some (.getHistory r₀)) (hsame : r₀.tuple = r.tuple)
    (hage : w.now - w₀.now ≤ limits.historyMaxAge * 60000000000)
    (hfew : (othersSince r.tuple l).card < limits.historyMaxElements) :
    ∃ points, LatestPut r.tuple l points ∧
      (∀ w' (q : Query .history) answer,
        .acted i w' (.call q) answer ∉ (limits.run schedule).log) ∧
      (∀ out, .responded i out ∈ (limits.run schedule).log → out = historyResponse r points) ∧
      ∀ w', .responded i (historyResponse r points) ∈
        ((Server.machine D).step (limits.run schedule) (.act i w')).log := by
  have hl : l <:+ (limits.run schedule).log := (List.suffix_cons _ _).trans hlookup
  obtain ⟨req, hreq', q, rfl, hasks⟩ := permitted hlookup
  obtain rfl : req = .getHistory r := Option.some.inj (hreq'.symm.trans hreq)
  have htuple : r.tuple = q.tuple := by
    have htuple := historyTuple_of_asks hreq hasks
    rw [hreq] at htuple
    exact Option.some.inj htuple
  -- the earlier `put` was made under the same key
  have hkey₀ : key₀ = q.cacheKey := by
    obtain ⟨req₀, hreq₀', q₀, h₀, rfl, _, hasks₀⟩ := permitted (hput.trans hl)
    have htuple₀ := historyTuple_of_asks hreq₀' hasks₀
    rw [hreq₀] at htuple₀
    have hq₀ : r₀.tuple = q₀.tuple := Option.some.inj htuple₀
    rw [← q₀.cacheKey_tuple, ← hq₀, hsame, htuple, q.cacheKey_tuple]
  subst hkey₀
  rw [htuple] at hfew ⊢
  obtain ⟨t, points, rfl, hlast⟩ := hit_of_recent_put hclock hlookup hput hage hfew
  have hq := hcodes.codes hl hasks.2.2
  refine ⟨points, latestPut_of_lastPut hcodes hq hl hlast, ?_, ?_⟩
  · intro w' q' answer hmem
    have hproject := (legal_log limits schedule).project_eq_of_stuck holds_serve
      (not_permits_of_hit (c := .history) (by decide)) hlookup hreq (by rw [project, if_pos rfl])
    have hcall : ⟨.call q', answer⟩ ∈ project i (limits.run schedule).log :=
      mem_project.mpr ⟨w', hmem⟩
    rw [hproject] at hcall
    rcases List.mem_cons.mp hcall with heq | hcall
    · cases heq
    · cases hasks.1 _ hcall _ rfl
  · obtain ⟨⟨req₁, k, hreq₁, hpath⟩, _⟩ := (legal_log limits schedule).of_suffix hlookup
    obtain rfl : req₁ = .getHistory r := Option.some.inj (hreq₁.symm.trans hreq)
    obtain ⟨out, hanswers, hunique, hstep⟩ := Machine.settled (Server.machine D) (limits.empty D)
      schedule holds_serve (not_permits_of_hit (c := .history) (by decide)) hlookup hreq
      (by rw [project, if_pos rfl]) (hpath.next (some points))
    obtain rfl := eq_historyResponse_of_answers htuple hanswers
    exact ⟨hunique, hstep⟩

end Runs

def january (source : String) : HistoryRequest :=
  ⟨str source, str "eur", str "2024-01-01", str "2024-01-31"⟩

/-- The first request fetches and puts; the second has just looked the tuple up. -/
def twoHistories : Schedule ℚ :=
  inTurn 4 (tickAt 5 (online 1 [])) (.getHistory (january "usd"))
    9 (tickAt 0 (online 1 [])) (.getHistory (january "Usd"))

theorem mandatory_history_caching_of_twoHistories :
    ∃ points : List (ExchangeRate ℚ), LatestPut (january "usd").tuple
        (Limits.builtIn.run twoHistories).log.tail points ∧
      (∀ w' (q : Query .history) answer,
        .acted 1 w' (.call q) answer ∉ (Limits.builtIn.run twoHistories).log) ∧
      (∀ out, .responded 1 out ∈ (Limits.builtIn.run twoHistories).log →
        out = historyResponse (january "usd") points) ∧
      ∀ w', .responded 1 (historyResponse (january "usd") points) ∈
        ((Server.machine ℚ).step (Limits.builtIn.run twoHistories) (.act 1 w')).log := by
  have hcodes : CodesWithoutBar (Limits.builtIn.run twoHistories).log := by
    apply codesWithoutBar_of_euroAndDollar
    intro i w hact
    rcases tick_of_inTurn hact with rfl | rfl
    · rfl
    · rfl
  have hops : cacheOps .history (Limits.builtIn.run twoHistories).log =
      [.get (5 * 60000000000) (january "usd").tuple.cacheKey,
        .put (0 * 60000000000) (january "usd").tuple.cacheKey
          [⟨str "USD", str "EUR", 1, str "2024-01-01"⟩],
        .get (0 * 60000000000) (january "usd").tuple.cacheKey] := by
    with_unfolding_all rfl
  have hclock : NonDecreasing (cacheOps .history (Limits.builtIn.run twoHistories).log) := by
    rw [hops]
    simp [NonDecreasing, Reads]
  have hlookup : .acted 1 (tickAt 5 (online 1 []))
      (.cacheGet .history (january "usd").tuple.cacheKey)
      (some [⟨str "USD", str "EUR", 1, str "2024-01-01"⟩]) ::
        (Limits.builtIn.run twoHistories).log.tail <:+ (Limits.builtIn.run twoHistories).log :=
    ⟨[], by with_unfolding_all rfl⟩
  have hput : .acted 0 (tickAt 0 (online 1 []))
      (.cachePut .history (january "Usd").tuple.cacheKey
        [⟨str "USD", str "EUR", 1, str "2024-01-01"⟩]) () ::
        ((Limits.builtIn.run twoHistories).log.drop 7) <:+
          (Limits.builtIn.run twoHistories).log.tail :=
    ⟨(Limits.builtIn.run twoHistories).log.tail.take 5, by with_unfolding_all rfl⟩
  have hreq : requestOf 1 (Limits.builtIn.run twoHistories).log.tail =
      some (.getHistory (january "usd")) := by
    with_unfolding_all rfl
  have hreq₀ : requestOf 0 ((Limits.builtIn.run twoHistories).log.drop 7) =
      some (.getHistory (january "Usd")) := by
    with_unfolding_all rfl
  exact mandatory_history_caching .builtIn twoHistories hcodes hclock hlookup hreq hput hreq₀ rfl
    (by decide) (by decide +kernel)

end CurrencyConverter
