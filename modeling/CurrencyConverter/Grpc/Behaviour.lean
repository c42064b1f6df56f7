import CurrencyConverter.Grpc.CurrencyServiceImpl

/-!
# What a request may do

`Permits` gives, for every action of a handler, what the handler did before it,
and `Answers` does so for its outcome.  The caller's codes are looked up in the
currency list first; then comes one lookup for the request's own query, and
only its miss leads to a call of the provider and a `put` of the answer.

`Admitted` is what a request has passed before that lookup, and `Refused` the
reason of an outcome other than `OK`.
-/

namespace CurrencyConverter

open AtomicProgram Prog

variable {D : Type}

abbrev History (D : Type) := List (Done (Action D) Reply)

def ConvertRequest.pair (r : ConvertRequest D) : Query .latestRate :=
  .latestRate (toUpper r.sourceCurrency) (toUpper r.targetCurrency)

/-- The query of a request whose dates are well formed. -/
def Request.query : Request D → Option ((c : CacheId) × Query c)
  | .convert r => some ⟨.latestRate, r.pair⟩
  | .getHistory r =>
      match DateRange.construct r.startDate r.endDate with
      | .ok range =>
          some ⟨.history, .history (toUpper r.sourceCurrency) (toUpper r.targetCurrency) range⟩
      | .error _ => none
  | _ => none

theorem Request.query_getHistory {r : HistoryRequest} {x : (c : CacheId) × Query c}
    (h : (Request.getHistory r : Request D).query = some x) :
    ∃ range, DateRange.construct r.startDate r.endDate = .ok range ∧
      x = ⟨.history, .history (toUpper r.sourceCurrency) (toUpper r.targetCurrency) range⟩ := by
  rw [query] at h
  split at h
  · next range hrange => exact ⟨range, hrange, (Option.some.inj h).symm⟩
  · cases h

/-- No request's own query is for the currency list. -/
theorem Request.query_ne_currencies {req : Request D} {c : CacheId} {q : Query c}
    (h : req.query = some ⟨c, q⟩) : c ≠ .currencies := by
  cases req with
  | listCurrencies => cases h
  | getConstraints => cases h
  | convert r =>
      cases h
      decide
  | getHistory r =>
      obtain ⟨range, -, heq⟩ := query_getHistory h
      cases heq
      decide

def Query.codes {c : CacheId} : Query c → List Str
  | .listCurrencies => []
  | .latestRate source target => [source, target]
  | .history source target _ => [source, target]

def Action.about : Action D → Option CacheId
  | .cacheGet c _ => some c
  | .cachePut c _ _ => some c
  | .call (c := c) _ => some c
  | .systemClock => none

/-- Nothing but the currency list was looked at so far. -/
def CatalogOnly (h : History D) : Prop := ∀ d ∈ h, ∀ c, d.1.about = some c → c = .currencies

/-- The answer to `q` was just found in the cache, or fetched and put there. -/
def Obtained {c : CacheId} (h : History D) (q : Query c) (v : Stored D c) : Prop :=
  (∃ h', h = ⟨.cacheGet c q.cacheKey, some v⟩ :: h') ∨
    ∃ h', h = ⟨.cachePut c q.cacheKey v, ()⟩ :: ⟨.call q, .ok v⟩ :: h'

/-- A currency list with this code was found or fetched. -/
def Known (code : Str) (h : History D) : Prop :=
  ∃ list : List Currency, (∃ cur ∈ list, cur.code = code) ∧
    (⟨.cacheGet .currencies kCacheKey, some list⟩ ∈ h ∨ ⟨.call .listCurrencies, .ok list⟩ ∈ h)

/-- A request asks for the currency list, and for its own query once the codes
are known. -/
def Asks {c : CacheId} (req : Request D) (h : History D) (q : Query c) : Prop :=
  CatalogOnly h ∧ (c = .currencies ∨ req.query = some ⟨c, q⟩) ∧ ∀ code ∈ q.codes, Known code h

def Permits (req : Request D) (h : History D) : Action D → Prop
  | .systemClock => CatalogOnly h
  | .cacheGet c key => ∃ q : Query c, key = q.cacheKey ∧ Asks req h q
  | .call (c := c) q => ∃ h', h = ⟨.cacheGet c q.cacheKey, none⟩ :: h' ∧ Asks req h' q
  | .cachePut c key v => ∃ q : Query c, ∃ h', key = q.cacheKey ∧
      h = ⟨.call q, .ok v⟩ :: ⟨.cacheGet c q.cacheKey, none⟩ :: h' ∧ Asks req h' q

def Request.codes : Request D → List Str
  | .convert r => [toUpper r.sourceCurrency, toUpper r.targetCurrency]
  | .getHistory r => [toUpper r.sourceCurrency, toUpper r.targetCurrency]
  | _ => []

variable [Double D]

/-- The amount is a number within the bounds of `getConstraints`. -/
def AmountInBounds (amount : D) : Prop :=
  Double.isfinite amount = true ∧ ¬ amount < ConstraintsService.kMinAmount ∧
    ¬ ConstraintsService.kMaxAmount < amount

instance (amount : D) : Decidable (AmountInBounds amount) :=
  inferInstanceAs (Decidable (_ ∧ _ ∧ _))

/-- The dates are within the bounds that `getConstraints` gave in `h`. -/
def DatesInBounds (r : HistoryRequest) (h : History D) : Prop :=
  ∃ today : CalendarDate, ⟨.systemClock, today⟩ ∈ h ∧ ¬ r.startDate < str "1999-01-04" ∧
    ¬ today.format < r.endDate

/-- The request has passed every check. -/
def Admitted (req : Request D) (h : History D) : Prop :=
  (∀ code ∈ req.codes, Known code h) ∧ match req with
    | .convert r =>
        toUpper r.sourceCurrency ≠ toUpper r.targetCurrency ∧ AmountInBounds r.amount
    | .getHistory r => DatesInBounds r h
    | _ => False

def Action.storesEmptyList : Action D → Bool
  | .cachePut .currencies _ list => list.isEmpty
  | _ => false

/-- No other cache than that of the currencies is asked before the request is admitted,
and that one is given no empty list. -/
structure Follows (req : Request D) (h : History D) (a : Action D) : Prop where
  permits : Permits req h a
  admitted : ∀ c, a.about = some c → c ≠ .currencies → Admitted req h
  stores : a.storesEmptyList = false

/-- Why a handler threw: the provider failed or listed nothing, or a check did not pass
and nothing but the currency list was looked at. -/
inductive Refused : Request D → History D → Exception → Prop
  | provider (req : Request D) (h : History D) {c : CacheId} (q : Query c)
      (e : ProviderException) : Refused req (⟨.call q, .error e⟩ :: h) e.toException
  | emptyList (req : Request D) (h : History D) (what : Str)
      (hcat : CatalogOnly (⟨.call .listCurrencies, .ok []⟩ :: h : History D)) :
      Refused req (⟨.call .listCurrencies, .ok []⟩ :: h) (.externalApiUnexpectedResponse what)
  | unknown (req : Request D) (h : History D) (what : Str) {list : List Currency} {code : Str}
      (hcat : CatalogOnly h) (hlist : Obtained h .listCurrencies list) (hcode : code ∈ req.codes)
      (hunlisted : ∀ cur ∈ list, cur.code ≠ code) : Refused req h (.currencyNotFound what)
  | equalCodes (r : ConvertRequest D) (h : History D) (what : Str) (hcat : CatalogOnly h)
      (hknown : ∀ code ∈ (Request.convert r).codes, Known code h)
      (heq : toUpper r.sourceCurrency = toUpper r.targetCurrency) :
      Refused (.convert r) h (.invalidArgument what)
  | amount (r : ConvertRequest D) (h : History D) (what : Str) (hcat : CatalogOnly h)
      (hknown : ∀ code ∈ (Request.convert r).codes, Known code h)
      (hne : toUpper r.sourceCurrency ≠ toUpper r.targetCurrency)
      (hout : ¬ AmountInBounds r.amount) : Refused (.convert r) h (.invalidArgument what)
  | malformed (r : HistoryRequest) (ex : Exception)
      (hrange : DateRange.construct r.startDate r.endDate = .error ex) :
      Refused (.getHistory r) [] ex
  | dates (r : HistoryRequest) (h : History D) (what : Str) (hcat : CatalogOnly h)
      {range : DateRange} (hrange : DateRange.construct r.startDate r.endDate = .ok range)
      (hknown : ∀ code ∈ (Request.getHistory r : Request D).codes, Known code h)
      {today : CalendarDate} (hclock : ⟨.systemClock, today⟩ ∈ h)
      (hout : r.startDate < str "1999-01-04" ∨ today.format < r.endDate) :
      Refused (.getHistory r) h (.invalidArgument what)

/-- An outcome other than `OK` has a reason, and the bounds are those of a reading of
the clock. -/
def Explained (req : Request D) (h : History D) : Outcome D → Prop
  | .ok (.getConstraints bounds) => ∃ today : CalendarDate, h = [⟨.systemClock, today⟩] ∧
      bounds = ⟨ConstraintsService.kMinAmount, ConstraintsService.kMaxAmount, str "1999-01-04",
        today.format⟩
  | .ok _ => True
  | .error status => ∃ ex, Refused req h ex ∧ status = CurrencyServiceImpl.toStatus ex

def Answers (req : Request D) (h : History D) : Outcome D → Prop
  | .ok (.listCurrencies currencies) => req = .listCurrencies ∧ ∃ list,
      Obtained h .listCurrencies list ∧ currencies = list.map fun cur ↦ ⟨cur.code, cur.fullName⟩
  | .ok (.convert response) => ∃ r rate, req = .convert r ∧
      Obtained h (.latestRate (toUpper r.sourceCurrency) (toUpper r.targetCurrency)) rate ∧
      response = ⟨r.amount, r.amount * rate.rate, rate.rate, rate.date⟩
  | .ok (.getHistory response) => ∃ r range points, req = .getHistory r ∧
      DateRange.construct r.startDate r.endDate = .ok range ∧
      Obtained h (.history (toUpper r.sourceCurrency) (toUpper r.targetCurrency) range) points ∧
      response = ⟨r.sourceCurrency, r.targetCurrency,
        points.map fun point ↦ ⟨point.date, point.rate⟩⟩
  | .ok (.getConstraints _) => req = .getConstraints
  | .error _ => ∀ c (q : Query c) v h', req.query = some ⟨c, q⟩ →
      h ≠ ⟨.cacheGet c q.cacheKey, some v⟩ :: h'

/-! ## The catalog -/

omit [Double D]

@[simp] theorem catalogOnly_nil : CatalogOnly ([] : History D) := by simp [CatalogOnly]

theorem CatalogOnly.cons {h : History D} (hcat : CatalogOnly h) {a : Action D} (r : Reply a)
    (ha : a.about = some .currencies ∨ a.about = none) : CatalogOnly (⟨a, r⟩ :: h) := by
  intro d hd c hc
  rcases List.mem_cons.mp hd with rfl | hd
  · rcases ha with ha | ha
    · exact (Option.some.inj (ha.symm.trans hc)).symm
    · rw [ha] at hc
      cases hc
  · exact hcat d hd c hc

theorem not_catalogOnly_cons {h : History D} {a : Action D} {r : Reply a} {c : CacheId}
    (ha : a.about = some c) (hc : c ≠ .currencies) : ¬ CatalogOnly (⟨a, r⟩ :: h) :=
  fun hcat ↦ hc (hcat _ List.mem_cons_self c ha)

theorem Known.mono {code : Str} {h h' : History D} (hk : Known code h) (hs : h <:+ h') :
    Known code h' := by
  obtain ⟨list, hcode, hseen⟩ := hk
  exact ⟨list, hcode, hseen.imp hs.mem hs.mem⟩

theorem Obtained.seen {h : History D} {list : List Currency}
    (ho : Obtained h .listCurrencies list) :
    ⟨.cacheGet .currencies kCacheKey, some list⟩ ∈ h ∨ ⟨.call .listCurrencies, .ok list⟩ ∈ h := by
  rcases ho with ⟨h', rfl⟩ | ⟨h', rfl⟩
  · exact Or.inl List.mem_cons_self
  · exact Or.inr (List.mem_cons_of_mem _ List.mem_cons_self)

theorem Obtained.known {h : History D} {list : List Currency}
    (ho : Obtained h .listCurrencies list) {cur : Currency} (hcur : cur ∈ list) :
    Known cur.code h := ⟨list, ⟨cur, hcur, rfl⟩, ho.seen⟩

theorem Admitted.mono [Double D] {req : Request D} {h h' : History D} (ha : Admitted req h)
    (hs : h <:+ h') : Admitted req h' := by
  refine ⟨fun code hcode ↦ (ha.1 code hcode).mono hs, ?_⟩
  cases req with
  | listCurrencies => exact ha.2
  | getConstraints => exact ha.2
  | convert r => exact ha.2
  | getHistory r =>
      obtain ⟨today, hclock, hbounds⟩ := ha.2
      exact ⟨today, hs.mem hclock, hbounds⟩

theorem Obtained.eq_of_hit {c : CacheId} {key : Str} {v v' : Stored D c} {h : History D}
    {q : Query c} (ho : Obtained (⟨.cacheGet c key, some v⟩ :: h) q v') : v = v' := by
  rcases ho with ⟨h', heq⟩ | ⟨h', heq⟩
  · generalize q.cacheKey = key' at heq
    cases heq
    rfl
  · cases heq

/-- After a hit on its own query a handler does nothing more. -/
theorem not_permits_of_hit {req : Request D} {h : History D} {c : CacheId} {key : Str}
    {v : Stored D c} (hc : c ≠ .currencies) (a : Action D) :
    ¬ Permits req (⟨.cacheGet c key, some v⟩ :: h) a := by
  intro hpermits
  cases a with
  | systemClock => exact not_catalogOnly_cons rfl hc hpermits
  | cacheGet c' key' =>
      obtain ⟨q, _, hasks⟩ := hpermits
      exact not_catalogOnly_cons rfl hc hasks.1
  | call q =>
      obtain ⟨h', heq, _⟩ := hpermits
      cases heq
  | cachePut c' key' v' =>
      obtain ⟨q, h', _, heq, _⟩ := hpermits
      cases heq

/-! ## Rules of the services -/

section Rules

variable {req : Request D} {h : History D}

theorem holds_call {G : History D → Action D → Prop} {c : CacheId} {q : Query c}
    {Post : History D → Except Exception (Stored D c) → Prop} (hcall : G h (.call q))
    (hok : ∀ v, Post (⟨.call q, .ok v⟩ :: h) (.ok v))
    (herr : ∀ ex, Post (⟨.call q, .error ex⟩ :: h) (.error ex.toException)) :
    Holds G Post h (Service.call q).run := by
  rw [Service.call, holds_run_bind]
  refine ⟨hcall, fun answer ↦ ?_⟩
  cases answer with
  | ok v => exact hok v
  | error ex => exact herr ex

theorem holds_getOrFetch {G : History D → Action D → Prop} {c : CacheId} {q : Query c}
    {fetch : Service D (Stored D c)} {Post : History D → Except Exception (Stored D c) → Prop}
    (hget : G h (.cacheGet c q.cacheKey))
    (hhit : ∀ v, Post (⟨.cacheGet c q.cacheKey, some v⟩ :: h) (.ok v))
    (hfetch : Holds G (fun h' out ↦ match out with
      | .ok v => G h' (.cachePut c q.cacheKey v) ∧
          Post (⟨.cachePut c q.cacheKey v, ()⟩ :: h') (.ok v)
      | .error ex => Post h' (.error ex)) (⟨.cacheGet c q.cacheKey, none⟩ :: h) fetch.run) :
    Holds G Post h (Service.getOrFetch q fetch).run := by
  rw [Service.getOrFetch, holds_run_bind]
  refine ⟨hget, fun cached ↦ ?_⟩
  cases cached with
  | some v => exact hhit v
  | none =>
      change Holds G Post _ (_ >>= _ : Service D (Stored D c)).run
      rw [holds_run_bind]
      apply hfetch.mono
      intro h' out hout
      cases out with
      | ok v => exact ⟨hout.1, fun _ ↦ hout.2⟩
      | error ex => exact hout

variable [Double D]

theorem holds_getOrFetch_call {c : CacheId} {q : Query c} (hc : c ≠ .currencies)
    {Post : History D → Except Exception (Stored D c) → Prop} (hasks : Asks req h q)
    (hadmitted : Admitted req h) (hok : ∀ h' v, Obtained h' q v → Post h' (.ok v))
    (herr : ∀ h' e, Post (⟨.call q, .error e⟩ :: h') (.error e.toException)) :
    Holds (Follows req) Post h (Service.getOrFetch q (Service.call q)).run := by
  have hlater : ∀ h', h <:+ h' → Admitted req h' := fun h' hs ↦ hadmitted.mono hs
  apply holds_getOrFetch
  · exact ⟨⟨q, rfl, hasks⟩, fun _ _ _ ↦ hadmitted, rfl⟩
  · intro v
    exact hok _ v (Or.inl ⟨h, rfl⟩)
  · apply holds_call
    · exact ⟨⟨h, rfl, hasks⟩, fun _ _ _ ↦ hlater _ (List.suffix_cons _ _), rfl⟩
    · intro v
      have hstores : (Action.cachePut c q.cacheKey v).storesEmptyList = false := by
        cases c with
        | currencies => exact absurd rfl hc
        | latestRate => rfl
        | history => rfl
      refine ⟨⟨⟨q, h, rfl, rfl, hasks⟩, fun _ _ _ ↦ hlater _ ?_, hstores⟩,
        hok _ v (Or.inr ⟨_, rfl⟩)⟩
      exact (List.suffix_cons _ _).trans (List.suffix_cons _ _)
    · intro e
      exact herr _ e

theorem holds_listCurrencies {Post : History D → Except Exception (List Currency) → Prop}
    (hcat : CatalogOnly h)
    (hok : ∀ h' list, h <:+ h' → CatalogOnly h' → Obtained h' .listCurrencies list →
      Post h' (.ok list))
    (herr : ∀ h' ex, CatalogOnly h' → Refused req h' ex → Post h' (.error ex)) :
    Holds (Follows req) Post h CurrencyCatalogService.listCurrencies.run := by
  have hasks : Asks req h .listCurrencies := ⟨hcat, Or.inl rfl, by simp [Query.codes]⟩
  have hmiss : CatalogOnly (⟨.cacheGet .currencies kCacheKey, none⟩ :: h : History D) :=
    hcat.cons _ (Or.inl rfl)
  have hown : ∀ h' : History D, ∀ c, some CacheId.currencies = some c → c ≠ .currencies →
      Admitted req h' := fun h' c hc hne ↦ absurd (Option.some.inj hc).symm hne
  apply holds_getOrFetch
  · exact ⟨⟨.listCurrencies, rfl, hasks⟩, hown _, rfl⟩
  · intro list
    exact hok _ list (List.suffix_cons _ _) (hcat.cons _ (Or.inl rfl)) (Or.inl ⟨h, rfl⟩)
  · rw [holds_run_bind]
    apply holds_call
    · exact ⟨⟨h, rfl, hasks⟩, hown _, rfl⟩
    · intro list
      have hcalled : CatalogOnly (⟨.call .listCurrencies, .ok list⟩ :: _ : History D) :=
        hmiss.cons _ (Or.inl rfl)
      by_cases hempty : list.isEmpty = true
      · obtain rfl := List.isEmpty_iff.mp hempty
        exact herr _ _ hcalled (.emptyList req _ _ hcalled)
      · simp only [hempty]
        refine ⟨⟨⟨.listCurrencies, h, rfl, rfl, hasks⟩, hown _, (Bool.not_eq_true _).mp hempty⟩,
          hok _ list ?_ ?_ (Or.inr ⟨_, rfl⟩)⟩
        · exact (List.suffix_cons _ _).trans ((List.suffix_cons _ _).trans (List.suffix_cons _ _))
        · exact hcalled.cons _ (Or.inl rfl)
    · intro e
      exact herr _ _ (hmiss.cons _ (Or.inl rfl)) (.provider req _ _ e)

theorem holds_checkKnown {Post : History D → Except Exception Unit → Prop} (role code : Str)
    (hcode : toUpper code ∈ req.codes) (hcat : CatalogOnly h)
    (hok : ∀ h', h <:+ h' → CatalogOnly h' → Known (toUpper code) h' → Post h' (.ok ()))
    (herr : ∀ h' ex, CatalogOnly h' → Refused req h' ex → Post h' (.error ex)) :
    Holds (Follows req) Post h (checkKnown role code).run := by
  rw [checkKnown, holds_run_bind, CurrencyCatalogService.isKnownCurrency, holds_run_bind]
  apply holds_listCurrencies hcat
  · intro h' list hs hcat' hobtained
    change Holds _ Post h' (ite _ _ _ : Service D Unit).run
    by_cases hknown : (list.any fun cur ↦ cur.code = toUpper code) = true
    · rw [if_neg (by simpa using hknown)]
      obtain ⟨cur, hcur, hlisted⟩ := List.any_eq_true.mp hknown
      have hlisted' : cur.code = toUpper code := by simpa using hlisted
      exact hok h' hs hcat' (hlisted' ▸ hobtained.known hcur)
    · rw [if_pos (by simpa using hknown)]
      have hunlisted : ∀ cur ∈ list, cur.code ≠ toUpper code := by simpa using hknown
      exact herr h' _ hcat' (.unknown req h' _ hcat' hobtained hcode hunlisted)
  · exact herr

omit [Double D] in
theorem holds_getConstraints {G : History D → Action D → Prop} [Double D]
    {Post : History D → Except Exception (Constraints D) → Prop} (hclock : G h .systemClock)
    (hok : ∀ today : CalendarDate, Post (⟨.systemClock, today⟩ :: h) (.ok
      ⟨ConstraintsService.kMinAmount, ConstraintsService.kMaxAmount, str "1999-01-04",
        today.format⟩)) :
    Holds G Post h ConstraintsService.getConstraints.run := by
  rw [ConstraintsService.getConstraints, holds_run_bind]
  exact ⟨hclock, hok⟩

theorem follows_systemClock (hcat : CatalogOnly h) : Follows req h .systemClock :=
  ⟨hcat, fun _ hc _ ↦ (nomatch hc), rfl⟩

theorem holds_checkBoth {α : Type} {Post : History D → Except Exception α → Prop}
    {source target : Str} {rest : Service D α}
    (hcodes : req.codes = [toUpper source, toUpper target])
    (hrest : ∀ h', CatalogOnly h' → (∀ code ∈ req.codes, Known code h') →
      Holds (Follows req) Post h' rest.run)
    (herr : ∀ h' ex, CatalogOnly h' → Refused req h' ex → Post h' (.error ex)) :
    Holds (Follows req) Post [] (do
      checkKnown (str "source") (toUpper source)
      checkKnown (str "target") (toUpper target)
      rest : Service D α).run := by
  rw [holds_run_bind]
  apply holds_checkKnown _ _ (by simp [hcodes, toUpper_toUpper]) catalogOnly_nil
  · intro h₁ _ hcat₁ hsource
    change Holds _ _ h₁ (_ >>= _ : Service D α).run
    rw [holds_run_bind]
    apply holds_checkKnown _ _ (by simp [hcodes, toUpper_toUpper]) hcat₁
    · intro h₂ hs hcat₂ htarget
      rw [toUpper_toUpper] at hsource htarget
      apply hrest h₂ hcat₂
      intro code hcode
      rw [hcodes] at hcode
      rcases List.mem_pair.mp hcode with rfl | rfl
      · exact hsource.mono hs
      · exact htarget
    · exact herr
  · exact herr

theorem holds_convert {r : ConvertRequest D}
    {Post : History D → Except Exception (ConversionResult D) → Prop}
    (hok : ∀ h rate,
      Obtained h (.latestRate (toUpper r.sourceCurrency) (toUpper r.targetCurrency)) rate →
        Post h (.ok ⟨r.amount, r.amount * rate.rate, rate.rate, rate.date⟩))
    (hcat : ∀ h ex, CatalogOnly h → Refused (.convert r) h ex → Post h (.error ex))
    (hcall : ∀ h (q : Query .latestRate) e,
      Post (⟨.call q, .error e⟩ :: h) (.error e.toException)) :
    Holds (Follows (.convert r)) Post []
      (ConversionService.convert r.sourceCurrency r.targetCurrency r.amount).run := by
  apply holds_checkBoth rfl
  · intro h hcat' hknown
    by_cases heq : toUpper r.sourceCurrency = toUpper r.targetCurrency
    · rw [if_pos heq]
      exact hcat h _ hcat' (.equalCodes r h _ hcat' hknown heq)
    · rw [if_neg heq]
      change Holds _ _ _ (_ >>= _ : Service D (ConversionResult D)).run
      rw [holds_run_bind]
      apply holds_getConstraints (follows_systemClock hcat')
      intro today
      have hcat'' : CatalogOnly (⟨.systemClock, today⟩ :: h : History D) :=
        hcat'.cons _ (Or.inr rfl)
      have hknown' : ∀ code ∈ (Request.convert r).codes,
          Known code (⟨.systemClock, today⟩ :: h : History D) :=
        fun code hcode ↦ (hknown code hcode).mono (List.suffix_cons _ _)
      change Holds _ _ _ (ite _ _ _ : Service D (ConversionResult D)).run
      split
      · rename_i hout
        apply hcat _ _ hcat''
        apply Refused.amount r _ _ hcat'' hknown' heq
        intro hin
        simp [hin.1, hin.2.1, hin.2.2] at hout
      · rename_i hin
        have hamount : AmountInBounds r.amount := by simpa [AmountInBounds] using hin
        rw [holds_run_bind]
        exact holds_getOrFetch_call (by decide) ⟨hcat'', Or.inr rfl, hknown'⟩
          ⟨hknown', heq, hamount⟩ hok fun h' e ↦ hcall h' _ e
  · exact hcat

theorem holds_getHistory {r : HistoryRequest} {range : DateRange}
    {Post : History D → Except Exception (List (ExchangeRate D)) → Prop}
    (hrange : DateRange.construct r.startDate r.endDate = .ok range)
    (hok : ∀ h points,
      Obtained h (.history (toUpper r.sourceCurrency) (toUpper r.targetCurrency) range) points →
        Post h (.ok points))
    (hcat : ∀ h ex, CatalogOnly h → Refused (.getHistory r) h ex → Post h (.error ex))
    (hcall : ∀ h (q : Query .history) e,
      Post (⟨.call q, .error e⟩ :: h) (.error e.toException)) :
    Holds (Follows (.getHistory r)) Post []
      (HistoryService.getHistory r.sourceCurrency r.targetCurrency range).run := by
  obtain ⟨hstart, hend⟩ := DateRange.construct_eq_ok.mp hrange
  apply holds_checkBoth rfl
  · intro h hcat' hknown
    rw [holds_run_bind]
    apply holds_getConstraints (follows_systemClock hcat')
    intro today
    have hcat'' : CatalogOnly (⟨.systemClock, today⟩ :: h : History D) :=
      hcat'.cons _ (Or.inr rfl)
    have hknown' : ∀ code ∈ (Request.getHistory r : Request D).codes,
        Known code (⟨.systemClock, today⟩ :: h : History D) :=
      fun code hcode ↦ (hknown code hcode).mono (List.suffix_cons _ _)
    change Holds _ _ _ (ite _ _ _ : Service D (List (ExchangeRate D))).run
    rw [hstart, hend]
    split
    · rename_i hout
      exact hcat _ _ hcat'' (.dates r _ _ hcat'' hrange hknown' List.mem_cons_self hout)
    · rename_i hin
      rw [not_or] at hin
      have hquery : (Request.getHistory r : Request D).query = some ⟨.history,
          .history (toUpper r.sourceCurrency) (toUpper r.targetCurrency) range⟩ := by
        simp [Request.query, hrange]
      exact holds_getOrFetch_call (by decide) ⟨hcat'', Or.inr hquery, hknown'⟩
        ⟨hknown', today, List.mem_cons_self, hin⟩ hok fun h' e ↦ hcall h' _ e
  · exact hcat

/-! ## The handlers -/

omit [Double D] in
theorem holds_handle {G : History D → Action D → Prop} {Post : History D → Outcome D → Prop}
    {work : Service D (Response D)}
    (hwork : Holds G (fun h out ↦ match out with
      | .ok response => Post h (.ok response)
      | .error ex => Post h (.error (CurrencyServiceImpl.toStatus ex))) [] work.run) :
    Holds G Post [] (CurrencyServiceImpl.handle work) := by
  rw [CurrencyServiceImpl.handle, holds_bind]
  apply hwork.mono
  intro h out hout
  cases out with
  | ok response => exact hout
  | error ex => exact hout

theorem answers_error_of_catalogOnly {status : Status} (hcat : CatalogOnly h) :
    Answers req h (.error status) := by
  rintro c q v h' hquery rfl
  exact not_catalogOnly_cons rfl (Request.query_ne_currencies hquery) hcat

theorem answers_error_of_call {status : Status} {c : CacheId} {q : Query c}
    {e : ProviderException} : Answers req (⟨.call q, .error e⟩ :: h) (.error status) := by
  intro c' q' v h' _ heq
  cases heq

/-- Every handler keeps to `Follows` and ends as `Answers` and `Explained` say. -/
theorem holds_serve_explained (req : Request D) :
    Holds (Follows req) (fun h out ↦ Answers req h out ∧ Explained req h out) []
      (CurrencyServiceImpl.serve req) := by
  have hcat : ∀ h ex, CatalogOnly h → Refused req h ex →
      Answers req h (.error (CurrencyServiceImpl.toStatus ex)) ∧
        Explained req h (.error (CurrencyServiceImpl.toStatus ex)) :=
    fun h ex hcat hrefused ↦ ⟨answers_error_of_catalogOnly hcat, ex, hrefused, rfl⟩
  have hcall : ∀ (h : History D) {c : CacheId} (q : Query c) (e : ProviderException),
      Answers req (⟨.call q, .error e⟩ :: h) (.error (CurrencyServiceImpl.toStatus e.toException)) ∧
        Explained req (⟨.call q, .error e⟩ :: h)
          (.error (CurrencyServiceImpl.toStatus e.toException)) :=
    fun h _ q e ↦ ⟨answers_error_of_call, _, .provider req h q e, rfl⟩
  cases req with
  | listCurrencies =>
      apply holds_handle
      rw [holds_run_bind]
      apply holds_listCurrencies catalogOnly_nil
      · intro h list _ _ hobtained
        exact ⟨⟨rfl, list, hobtained, rfl⟩, trivial⟩
      · exact hcat
  | convert r =>
      apply holds_handle
      rw [holds_run_bind]
      apply holds_convert
      · intro h rate hobtained
        exact ⟨⟨r, rate, rfl, hobtained, rfl⟩, trivial⟩
      · exact hcat
      · intro h q e
        exact hcall h q e
  | getHistory r =>
      apply holds_handle
      rw [holds_run_bind]
      cases hrange : DateRange.construct r.startDate r.endDate with
      | error ex => exact hcat [] ex catalogOnly_nil (.malformed r ex hrange)
      | ok range =>
          change Holds _ _ [] (_ >>= _ : Service D (Response D)).run
          rw [holds_run_bind]
          apply holds_getHistory hrange
          · intro h points hobtained
            exact ⟨⟨r, range, points, rfl, hrange, hobtained, rfl⟩, trivial⟩
          · exact hcat
          · intro h q e
            exact hcall h q e
  | getConstraints =>
      apply holds_handle
      rw [holds_run_bind]
      apply holds_getConstraints (follows_systemClock catalogOnly_nil)
      intro today
      exact ⟨rfl, today, rfl, rfl⟩

/-- Every handler keeps to `Permits` and ends as `Answers` says. -/
theorem holds_serve (req : Request D) :
    Holds (Permits req) (Answers req) [] (CurrencyServiceImpl.serve req) :=
  ((holds_serve_explained req).mono fun _ _ h ↦ h.1).imp fun _ _ h ↦ h.permits

end Rules

/-! ## What a handler did -/

def Consulted (c : CacheId) (h : History D) : Prop := ∃ key reply, ⟨.cacheGet c key, reply⟩ ∈ h

def Called (c : CacheId) (h : History D) : Prop :=
  ∃ (q : Query c) (answer : Except ProviderException (Stored D c)), ⟨.call q, answer⟩ ∈ h

section Handler

variable [Double D] {req : Request D} {h : History D} {p : Prog (Action D) Reply (Outcome D)}

theorem follows_of_mem (hpath : Path (CurrencyServiceImpl.serve req) h p)
    {d : Done (Action D) Reply} (hd : d ∈ h) : ∃ h', d :: h' <:+ h ∧ Follows req h' d.1 :=
  (holds_serve_explained req).permitted hpath hd

theorem follows_of_cons {d : Done (Action D) Reply}
    (hpath : Path (CurrencyServiceImpl.serve req) (d :: h) p) : Follows req h d.1 := by
  obtain ⟨k, hact⟩ := hpath.act_of_cons
  exact ((holds_serve_explained req).of_path hact).1

/-- Whoever calls for an answer or stores one has looked for it in the cache first. -/
theorem consulted_of_about (hpath : Path (CurrencyServiceImpl.serve req) h p)
    {d : Done (Action D) Reply} (hd : d ∈ h) {c : CacheId} (hc : d.1.about = some c) :
    Consulted c h := by
  obtain ⟨h', hs, hpermits, _, _⟩ := follows_of_mem hpath hd
  obtain ⟨a, reply⟩ := d
  cases a with
  | systemClock => cases hc
  | cacheGet c' key =>
      cases hc
      exact ⟨key, reply, hd⟩
  | call q =>
      cases hc
      obtain ⟨h'', rfl, _⟩ := hpermits
      exact ⟨_, _, hs.mem (List.mem_cons_of_mem _ List.mem_cons_self)⟩
  | cachePut c' key v =>
      cases hc
      obtain ⟨q, h'', rfl, rfl, _⟩ := hpermits
      exact ⟨_, _, hs.mem (List.mem_cons_of_mem _ (List.mem_cons_of_mem _ List.mem_cons_self))⟩

theorem consulted_of_obtained (hpath : Path (CurrencyServiceImpl.serve req) h p) {c : CacheId}
    {q : Query c} {v : Stored D c} (hobtained : Obtained h q v) : Consulted c h := by
  rcases hobtained with ⟨h', rfl⟩ | ⟨h', rfl⟩
  · exact consulted_of_about hpath List.mem_cons_self rfl
  · exact consulted_of_about hpath List.mem_cons_self rfl

end Handler

end CurrencyConverter
