import CurrencyConverter.Grpc.Behaviour

/-!
# Where answers come from

A value found in a cache was put there by a thread that had just fetched it for
the same key.  Keys of known codes determine their query, so every answer goes
back to a call of the provider for exactly the query of its request.
-/

namespace CurrencyConverter

open AtomicProgram CoherentCache

variable {D : Type}

/-! ## Keys -/

theorem length_of_isIsoDate {s : Str} (h : isIsoDate s = true) : s.length = 10 := by
  by_contra hlen
  simp [isIsoDate, hlen] at h

def bar : UInt8 := 124

theorem eq_of_append_cons {α : Type} {x : α} {s s' t t' : List α} (hs : x ∉ s) (hs' : x ∉ s')
    (h : s ++ x :: t = s' ++ x :: t') : s = s' ∧ t = t' := by
  induction s generalizing s' with
  | nil =>
      cases s' with
      | nil => exact ⟨rfl, (List.cons.inj h).2⟩
      | cons y ys =>
          obtain rfl : x = y := (List.cons.inj h).1
          exact absurd List.mem_cons_self hs'
  | cons y ys ih =>
      cases s' with
      | nil =>
          obtain rfl : y = x := (List.cons.inj h).1
          exact absurd List.mem_cons_self hs
      | cons y' ys' =>
          obtain ⟨rfl, htail⟩ := List.cons.inj h
          obtain ⟨rfl, rfl⟩ := ih (List.not_mem_of_not_mem_cons hs)
            (List.not_mem_of_not_mem_cons hs') htail
          exact ⟨rfl, rfl⟩

/-- Queries for codes without a bar have a key of their own. -/
theorem Query.eq_of_cacheKey {c : CacheId} {q q' : Query c} (hq : ∀ code ∈ q.codes, bar ∉ code)
    (hq' : ∀ code ∈ q'.codes, bar ∉ code) (hkey : q.cacheKey = q'.cacheKey) : q = q' := by
  have hbar : str "|" = [bar] := rfl
  cases q with
  | listCurrencies =>
      cases q'
      rfl
  | latestRate source target =>
      cases q' with
      | latestRate source' target' =>
          rw [cacheKey, cacheKey, hbar, List.append_assoc, List.append_assoc] at hkey
          obtain ⟨rfl, rfl⟩ := eq_of_append_cons (hq source List.mem_cons_self)
            (hq' source' List.mem_cons_self) hkey
          rfl
  | history source target range =>
      cases q' with
      | history source' target' range' =>
          simp only [cacheKey, hbar, List.append_assoc, List.singleton_append] at hkey
          obtain ⟨rfl, hrest⟩ := eq_of_append_cons (hq source List.mem_cons_self)
            (hq' source' List.mem_cons_self) hkey
          obtain ⟨rfl, hdates⟩ := eq_of_append_cons (hq target (by simp [codes]))
            (hq' target' (by simp [codes])) hrest
          have hlen : range.startDate.length = range'.startDate.length := by
            rw [length_of_isIsoDate range.start_iso, length_of_isIsoDate range'.start_iso]
          obtain ⟨hstart, hend⟩ := List.append_inj hdates hlen
          rw [DateRange.ext hstart (List.cons.inj hend).2]

/-! ## Calls on a cache in the log -/

theorem opOf_eq_put {c : CacheId} {e : ServerEvent D} {t : ℤ} {key : Str} {v : Stored D c} :
    opOf c e = some (.put t key v) ↔
      ∃ i w, e = .acted i w (.cachePut c key v) () ∧ w.now = t := by
  constructor
  · intro h
    unfold opOf at h
    split at h
    · split at h
      · cases h
      · cases h
    · split at h
      · rename_i i w c' key' v' _ hc
        subst hc
        cases h
        exact ⟨i, w, rfl, rfl⟩
      · cases h
    · split at h
      · cases h
      · cases h
    · cases h
  · rintro ⟨i, w, rfl, rfl⟩
    simp [opOf]

theorem exists_put_of_lastPut {c : CacheId} {l : Log D} {key : Str} {t : ℤ} {v : Stored D c}
    (h : lastPut key (cacheOps c l) = some (t, v)) :
    ∃ j w l₀, .acted j w (.cachePut c key v) () :: l₀ <:+ l ∧ w.now = t ∧
      ∀ j' w' v' l', .acted j' w' (.cachePut c key v') () :: l' <:+ l → l' <:+ l₀ := by
  induction l with
  | nil => simp [cacheOps, lastPut] at h
  | cons e l ih =>
      by_cases hput : ∃ t' v', opOf c e = some (.put t' key v')
      · obtain ⟨t', v', hop⟩ := hput
        rw [cacheOps, List.filterMap_cons_some hop, lastPut, if_pos rfl] at h
        cases h
        obtain ⟨j, w, rfl, rfl⟩ := opOf_eq_put.mp hop
        refine ⟨j, w, l, List.suffix_refl _, rfl, fun j' w' v' l' hs ↦ ?_⟩
        rcases List.suffix_cons_iff.mp hs with heq | hs
        · cases heq
          exact List.suffix_refl _
        · exact (List.suffix_cons _ _).trans hs
      · have hold : lastPut key (cacheOps c l) = some (t, v) := by
          cases hop : opOf c e with
          | none => rwa [cacheOps, List.filterMap_cons_none hop] at h
          | some op =>
              rw [cacheOps, List.filterMap_cons_some hop, lastPut_cons_of_ne] at h
              · exact h
              · rintro t' v' rfl
                exact hput ⟨t', v', hop⟩
        obtain ⟨j, w, l₀, hs, ht, hlast⟩ := ih hold
        refine ⟨j, w, l₀, hs.trans (List.suffix_cons _ _), ht, fun j' w' v' l' hs' ↦ ?_⟩
        rcases List.suffix_cons_iff.mp hs' with heq | hs'
        · cases heq
          exact absurd ⟨w'.now, v', opOf_eq_put.mpr ⟨j', w', rfl, rfl⟩⟩ hput
        · exact hlast j' w' v' l' hs'

section Runs

variable [Double D] {limits : Limits} {schedule : Schedule D} {l : Log D} {i : ℕ}

theorem legal_log (limits : Limits) (schedule : Schedule D) :
    (Server.machine D).Legal (limits.empty D) (limits.run schedule).log :=
  Machine.legal_run _ _ _

theorem permitted {w : Tick D} {a : Action D} {r : Reply a}
    (hs : .acted i w a r :: l <:+ (limits.run schedule).log) :
    ∃ req, requestOf i l = some req ∧ Permits req (project i l) a :=
  (legal_log limits schedule).permitted holds_serve hs

/-- A hit returns what was put last under the key, within the age of the cache. -/
theorem exists_put_of_hit {c : CacheId} {w : Tick D} {key : Str} {v : Stored D c}
    (hs : .acted i w (.cacheGet c key) (some v) :: l <:+ (limits.run schedule).log) :
    ∃ j w₀ l₀, .acted j w₀ (.cachePut c key v) () :: l₀ <:+ l ∧
      w.now - w₀.now ≤ limits.maxAge c * 60000000000 ∧
      ∀ j' w' v' l', .acted j' w' (.cachePut c key v') () :: l' <:+ l → l' <:+ l₀ := by
  have hhit : some v = (((limits.empty D c).after (cacheOps c l)).step (.get w.now key)).1 := by
    rw [← sharedAfter_eq_after]
    exact (legal_log limits schedule).answered hs
  obtain ⟨t₀, hlastPut, hfresh⟩ := lastPut_of_hit _ hhit.symm
  obtain ⟨j, w₀, l₀, hput, rfl, hlast⟩ := exists_put_of_lastPut hlastPut
  exact ⟨j, w₀, l₀, hput, isExpired_eq_false_iff.mp hfresh, hlast⟩

theorem exists_call_of_put {c : CacheId} {w : Tick D} {key : Str} {v : Stored D c}
    (hs : .acted i w (.cachePut c key v) () :: l <:+ (limits.run schedule).log) :
    ∃ q : Query c, key = q.cacheKey ∧ (∀ code ∈ q.codes, Known code (project i l)) ∧
      ∃ w₁ l₁, .acted i w₁ (.call q) (.ok v) :: l₁ <:+ l := by
  obtain ⟨req, _, q, h', hkey, hproject, hasks⟩ := permitted hs
  obtain ⟨w₁, l₁, hcall, _⟩ := exists_acted_of_project hproject
  refine ⟨q, hkey, fun code hcode ↦ ?_, w₁, l₁, hcall⟩
  rw [hproject]
  exact (hasks.2.2 code hcode).mono ((List.suffix_cons _ _).trans (List.suffix_cons _ _))

/-- A list that a thread found or fetched was returned by the provider. -/
theorem exists_call_of_seen {list : List Currency} (hs : l <:+ (limits.run schedule).log)
    (hseen : ⟨.cacheGet .currencies kCacheKey, some list⟩ ∈ project i l ∨
      ⟨.call .listCurrencies, .ok list⟩ ∈ project i l) :
    ∃ j w, .acted j w (.call .listCurrencies) (.ok list) ∈ (limits.run schedule).log := by
  rcases hseen with hhit | hcall
  · obtain ⟨w, hmem⟩ := mem_project.mp hhit
    obtain ⟨earlier, hearlier⟩ := exists_suffix_of_mem hmem
    have hget := hearlier.trans hs
    obtain ⟨j, w₀, l₀, hput, _⟩ := exists_put_of_hit hget
    have hput' := hput.trans ((List.suffix_cons _ _).trans hget)
    obtain ⟨q, _, _, w₁, l₁, hcall⟩ := exists_call_of_put hput'
    cases q
    have hmem := hcall.mem List.mem_cons_self
    exact ⟨j, w₁, ((List.suffix_cons _ _).trans hput').mem hmem⟩
  · obtain ⟨w, hmem⟩ := mem_project.mp hcall
    exact ⟨i, w, hs.mem hmem⟩

theorem exists_list_of_known {code : Str} (hs : l <:+ (limits.run schedule).log)
    (hknown : Known code (project i l)) :
    ∃ j w list, .acted j w (.call .listCurrencies) (.ok list) ∈ (limits.run schedule).log ∧
      ∃ cur ∈ list, cur.code = code := by
  obtain ⟨list, hcode, hseen⟩ := hknown
  obtain ⟨j, w, hcall⟩ := exists_call_of_seen hs hseen
  exact ⟨j, w, list, hcall, hcode⟩

theorem eq_upstream_of_call {c : CacheId} {q : Query c} {w : Tick D}
    {r : Except ProviderException (Stored D c)}
    (h : .acted i w (.call q) r ∈ (limits.run schedule).log) :
    r = w.upstream c q ∧ .act i w ∈ schedule := by
  refine ⟨?_, Machine.act_of_acted _ _ h⟩
  obtain ⟨earlier, hearlier⟩ := exists_suffix_of_mem h
  exact (legal_log limits schedule).answered hearlier

theorem eq_today_of_clock {w : Tick D} {today : CalendarDate}
    (h : .acted i w .systemClock today ∈ (limits.run schedule).log) :
    today = w.today ∧ .act i w ∈ schedule := by
  refine ⟨?_, Machine.act_of_acted _ _ h⟩
  obtain ⟨earlier, hearlier⟩ := exists_suffix_of_mem h
  exact (legal_log limits schedule).answered hearlier

/-! ## Provenance -/

/-- No currency code the provider lists has a bar. -/
def CodesWithoutBar (log : Log D) : Prop :=
  ∀ i w list, .acted i w (.call .listCurrencies) (.ok list) ∈ log →
    ∀ cur ∈ list, bar ∉ cur.code

/-- `v` is an answer of the provider to `q`: thread `i` called for it, or found
it where another thread had put the answer to its own call, not too long ago. -/
def Provenance (limits : Limits) (log : Log D) (i : ℕ) {c : CacheId} (q : Query c)
    (v : Stored D c) : Prop :=
  (∃ w, .acted i w (.call q) (.ok v) ∈ log) ∨
    ∃ w l, .acted i w (.cacheGet c q.cacheKey) (some v) :: l <:+ log ∧
      ∃ j w₀ l₀, .acted j w₀ (.cachePut c q.cacheKey v) () :: l₀ <:+ l ∧
        w.now - w₀.now ≤ limits.maxAge c * 60000000000 ∧
        ∃ w₁, .acted j w₁ (.call q) (.ok v) ∈ l₀

theorem CodesWithoutBar.codes (hcodes : CodesWithoutBar (limits.run schedule).log)
    (hs : l <:+ (limits.run schedule).log) {c : CacheId} {q : Query c}
    (hknown : ∀ code ∈ q.codes, Known code (project i l)) : ∀ code ∈ q.codes, bar ∉ code := by
  intro code hcode
  obtain ⟨j, w, list, hcall, cur, hcur, rfl⟩ := exists_list_of_known hs (hknown code hcode)
  exact hcodes j w list hcall cur hcur

/-- Who puts a value under the key of a query has fetched it for that query. -/
theorem exists_own_call_of_put (hcodes : CodesWithoutBar (limits.run schedule).log) {c : CacheId}
    {q : Query c} (hq : ∀ code ∈ q.codes, bar ∉ code) {w : Tick D} {v : Stored D c}
    (hs : .acted i w (.cachePut c q.cacheKey v) () :: l <:+ (limits.run schedule).log) :
    ∃ w₁ l₁, .acted i w₁ (.call q) (.ok v) :: l₁ <:+ l := by
  obtain ⟨q', hkey, hknown, hcall⟩ := exists_call_of_put hs
  have hq' := hcodes.codes ((List.suffix_cons _ _).trans hs) hknown
  rw [Query.eq_of_cacheKey hq hq' hkey]
  exact hcall

omit [Double D] in
theorem eq_of_asks {req req' : Request D} {h : History D} {c : CacheId} {q q' : Query c}
    (hreq : requestOf i l = some req) (hreq' : requestOf i l = some req')
    (hquery : req.query = some ⟨c, q⟩) (hasks : Asks req' h q') : q = q' := by
  obtain rfl : req = req' := Option.some.inj (hreq.symm.trans hreq')
  rcases hasks.2.1 with rfl | hquery'
  · cases q
    cases q'
    rfl
  · cases hquery.symm.trans hquery'
    rfl

theorem provenance_of_obtained (hcodes : CodesWithoutBar (limits.run schedule).log)
    (hs : l <:+ (limits.run schedule).log) {req : Request D} (hreq : requestOf i l = some req)
    {c : CacheId} {q : Query c} (hquery : req.query = some ⟨c, q⟩) {v : Stored D c}
    (hobtained : Obtained (project i l) q v) : Provenance limits l i q v := by
  rcases hobtained with ⟨h', hproject⟩ | ⟨h', hproject⟩
  · right
    obtain ⟨w, l₁, hget, rfl⟩ := exists_acted_of_project hproject
    have hget' := hget.trans hs
    obtain ⟨req', hreq', q', hkey, hasks⟩ := permitted hget'
    have hl := (legal_log limits schedule).of_suffix hs
    have hreq'' := hl.requestOf_of_suffix ((List.suffix_cons _ _).trans hget) hreq'
    obtain rfl := eq_of_asks hreq hreq'' hquery hasks
    obtain ⟨j, w₀, l₀, hput, hage, _⟩ := exists_put_of_hit hget'
    have hput' := hput.trans ((List.suffix_cons _ _).trans hget')
    obtain ⟨w₁, l₂, hcall⟩ := exists_own_call_of_put hcodes
      (hcodes.codes ((List.suffix_cons _ _).trans hget') hasks.2.2) hput'
    exact ⟨w, l₁, hget, j, w₀, l₀, hput, hage, w₁, hcall.mem List.mem_cons_self⟩
  · left
    obtain ⟨w, l₁, hput, hproject₁⟩ := exists_acted_of_project hproject
    obtain ⟨w₁, l₂, hcall, _⟩ := exists_acted_of_project hproject₁
    have hcall' := hcall.trans ((List.suffix_cons _ _).trans hput)
    exact ⟨w₁, hcall'.mem List.mem_cons_self⟩

/-- Every `OK` answer goes back to one answer of the provider to the request's
own query. -/
theorem answers_have_provenance (limits : Limits) (schedule : Schedule D)
    (hcodes : CodesWithoutBar (limits.run schedule).log) {i : ℕ} {before : Log D}
    {response : Response D}
    (hs : .responded i (.ok response) :: before <:+ (limits.run schedule).log) :
    (∀ r, requestOf i before = some (.convert r) → ∃ rate : ExchangeRate D,
      response = .convert ⟨r.amount, r.amount * rate.rate, rate.rate, rate.date⟩ ∧
        Provenance limits before i
          (.latestRate (toUpper r.sourceCurrency) (toUpper r.targetCurrency)) rate) ∧
    (∀ r, requestOf i before = some (.getHistory r) →
      ∃ (range : DateRange) (points : List (ExchangeRate D)),
        range.startDate = r.startDate ∧ range.endDate = r.endDate ∧
        response = .getHistory ⟨r.sourceCurrency, r.targetCurrency,
          points.map fun point ↦ ⟨point.date, point.rate⟩⟩ ∧
        Provenance limits before i
          (.history (toUpper r.sourceCurrency) (toUpper r.targetCurrency) range) points) := by
  have hbefore : before <:+ (limits.run schedule).log := (List.suffix_cons _ _).trans hs
  obtain ⟨req, hreq, hanswers⟩ := (legal_log limits schedule).result holds_serve hs
  constructor
  · intro r hr
    obtain rfl : req = .convert r := Option.some.inj (hreq.symm.trans hr)
    cases response with
    | listCurrencies currencies => cases hanswers.1
    | convert response =>
        obtain ⟨r', rate, ⟨⟩, hobtained, rfl⟩ := hanswers
        exact ⟨rate, rfl, provenance_of_obtained hcodes hbefore hr rfl hobtained⟩
    | getHistory response =>
        obtain ⟨_, _, _, ⟨⟩, _⟩ := hanswers
    | getConstraints response => cases hanswers
  · intro r hr
    obtain rfl : req = .getHistory r := Option.some.inj (hreq.symm.trans hr)
    cases response with
    | listCurrencies currencies => cases hanswers.1
    | convert response =>
        obtain ⟨_, _, ⟨⟩, _⟩ := hanswers
    | getHistory response =>
        obtain ⟨r', range, points, ⟨⟩, hrange, hobtained, rfl⟩ := hanswers
        obtain ⟨hstart, hend⟩ := DateRange.construct_eq_ok.mp hrange
        have hquery : (Request.getHistory r : Request D).query = some ⟨.history,
            .history (toUpper r.sourceCurrency) (toUpper r.targetCurrency) range⟩ := by
          simp [Request.query, hrange]
        exact ⟨range, points, hstart, hend, rfl,
          provenance_of_obtained hcodes hbefore hr hquery hobtained⟩
    | getConstraints response => cases hanswers

end Runs

theorem codesWithoutBar_of_euroAndDollar {limits : Limits} {schedule : Schedule ℚ}
    (h : ∀ i w, .act i w ∈ schedule →
      w.upstream .currencies .listCurrencies = .ok euroAndDollar) :
    CodesWithoutBar (limits.run schedule).log := by
  intro i w list hmem cur hcur
  obtain ⟨hlist, hact⟩ := eq_upstream_of_call hmem
  rw [h i w hact] at hlist
  cases hlist
  simp only [euroAndDollar, List.mem_cons, List.not_mem_nil, or_false] at hcur
  rcases hcur with rfl | rfl
  · decide
  · decide

/-- The first request fetches the rate, the second finds it five minutes later
and takes `n` steps. -/
def twoConversions (n : ℕ) : Schedule ℚ :=
  inTurn n (tickAt 5 (online (9 / 10) (str "2024-03-01"))) usdToEur
    9 (tickAt 0 (online (9 / 10) (str "2024-03-01"))) usdToEur

theorem answers_have_provenance_of_twoConversions :
    ∃ rate : ExchangeRate ℚ, Response.convert ⟨10, 10 * (9 / 10), 9 / 10, str "2024-03-01"⟩ =
      .convert ⟨10, 10 * rate.rate, rate.rate, rate.date⟩ ∧
        Provenance .builtIn (Limits.builtIn.run (twoConversions 4)).log 1
          (.latestRate (str "USD") (str "EUR")) rate := by
  have hcodes : CodesWithoutBar (Limits.builtIn.run (twoConversions 5)).log := by
    apply codesWithoutBar_of_euroAndDollar
    intro i w hact
    rcases tick_of_inTurn hact with rfl | rfl
    · rfl
    · rfl
  have hs : .responded 1 (.ok (.convert ⟨10, 10 * (9 / 10), 9 / 10, str "2024-03-01"⟩)) ::
      (Limits.builtIn.run (twoConversions 4)).log <:+
        (Limits.builtIn.run (twoConversions 5)).log :=
    ⟨[], by with_unfolding_all rfl⟩
  have hreq : requestOf 1 (Limits.builtIn.run (twoConversions 4)).log = some usdToEur := by
    with_unfolding_all rfl
  exact (answers_have_provenance _ _ hcodes hs).1 _ hreq

end CurrencyConverter
