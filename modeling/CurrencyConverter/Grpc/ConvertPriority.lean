import CurrencyConverter.Grpc.Failures

/-!
# The order of the checks of `Convert`

`documented` decides a conversion that runs alone by the checks in the order of the
documentation, from the caches, the clocks and the provider.  The handler answers what it
decides, and calls the provider for a rate where it says so and nowhere else.
-/

namespace CurrencyConverter

open AtomicProgram Prog CoherentCache RecencyList TimeAndSizeBoundedCache

variable {D : Type}

/-! ## The documented decision -/

inductive Verdict (D : Type)
  | rejected (code : StatusCode)
  | cached (rate : ExchangeRate D)
  | fetched (rate : ExchangeRate D)
  | failed (code : StatusCode)

def Caches.stored (caches : Caches D) (c : CacheId) (t : ℤ) (key : Str) (value : Stored D c) :
    Caches D :=
  Function.update caches c ((caches c).step (.put t key value)).2

def providerCode : ProviderException → StatusCode
  | .unavailable _ => .unavailable
  | .unexpectedResponse _ => .internal
  | .other _ => .internal

/-- A lookup of the currency list: the cached one, else what the provider answers. -/
def catalogAnswer (w : ℕ → Tick D) (i : ℕ) (caches : Caches D) :
    Except StatusCode (List Currency) :=
  match (caches .currencies).usable (w i).now kCacheKey with
  | some list => .ok list
  | none =>
      match (w (i + 1)).upstream .currencies .listCurrencies with
      | .error ex => .error (providerCode ex)
      | .ok [] => .error .internal
      | .ok list => .ok list

/-- Where a lookup that succeeded leaves the request: its next action and the caches. -/
def afterCatalog (w : ℕ → Tick D) (i : ℕ) (caches : Caches D) : ℕ × Caches D :=
  let seen := caches.looked .currencies (w i).now kCacheKey
  match (caches .currencies).usable (w i).now kCacheKey,
      (w (i + 1)).upstream .currencies .listCurrencies with
  | none, .ok list => (i + 3, seen.stored .currencies (w (i + 2)).now kCacheKey list)
  | _, _ => (i + 1, seen)

def lists (list : List Currency) (code : Str) : Bool := list.any fun cur ↦ cur.code = code

variable [Double D]

/-- The first check that applies decides. -/
def documented (w : ℕ → Tick D) (caches : Caches D) (r : ConvertRequest D) : Verdict D :=
  match catalogAnswer w 0 caches with
  | .error code => .rejected code
  | .ok list =>
      if !lists list (toUpper r.sourceCurrency) then .rejected .notFound
      else
        let first := afterCatalog w 0 caches
        match catalogAnswer w first.1 first.2 with
        | .error code => .rejected code
        | .ok list' =>
            if !lists list' (toUpper r.targetCurrency) then .rejected .notFound
            else if toUpper r.sourceCurrency = toUpper r.targetCurrency then
              .rejected .invalidArgument
            else if ¬ AmountInBounds r.amount then .rejected .invalidArgument
            else
              let i := (afterCatalog w first.1 first.2).1
              match (caches .latestRate).usable (w (i + 1)).now r.pair.cacheKey with
              | some rate => .cached rate
              | none =>
                  match (w (i + 2)).upstream .latestRate r.pair with
                  | .ok rate => .fetched rate
                  | .error ex => .failed (providerCode ex)

def rateCalls (h : History D) : List (Query .latestRate) :=
  h.filterMap fun
    | ⟨.call (c := .latestRate) q, _⟩ => some q
    | _ => none

/-- What a verdict says of the answer, of the calls for a rate and of the rates kept. -/
def Verdict.Describes (r : ConvertRequest D) (out : Outcome D) (calls : List (Query .latestRate))
    (kept : Cache D .latestRate) : Verdict D → Prop
  | .rejected code => (∃ what, out = .error ⟨code, what⟩) ∧ calls = []
  | .cached rate =>
      out = .ok (.convert ⟨r.amount, r.amount * rate.rate, rate.rate, rate.date⟩) ∧ calls = []
  | .fetched rate =>
      out = .ok (.convert ⟨r.amount, r.amount * rate.rate, rate.rate, rate.date⟩) ∧
        calls = [r.pair] ∧
          ∃ e, find Entry.key r.pair.cacheKey kept.entries = some e ∧ e.value = rate
  | .failed code => (∃ what, out = .error ⟨code, what⟩) ∧ calls = [r.pair]

/-! ## The handler with its actions kept -/

section Recorded

omit [Double D]

abbrev Progress (D : Type) := ℕ × Caches D × History D

def recorded {α : Type} (w : ℕ → Tick D) (p : Service D α) (st : Progress D) :
    Except Exception α × Progress D :=
  p.run.run (recording Server.answer) w st

variable {w : ℕ → Tick D} {i : ℕ} {caches : Caches D} {h : History D} {α β : Type}

theorem recorded_bind (p : Service D α) (f : α → Service D β) (st : Progress D) :
    recorded w (p >>= f) st = match recorded w p st with
      | (.ok a, st') => recorded w (f a) st'
      | (.error e, st') => (.error e, st') := by
  simp only [recorded, run_except_bind]
  rcases p.run.run (recording Server.answer) w st with ⟨_ | _, _⟩
  · rfl
  · rfl

theorem recorded_cacheGet (c : CacheId) (key : Str) :
    recorded w (Service.cacheGet c key) (i, caches, h) =
      (.ok ((caches c).usable (w i).now key), i + 1, caches.looked c (w i).now key,
        ⟨.cacheGet c key, (caches c).usable (w i).now key⟩ :: h) := by
  rw [← get_eq_usable]
  rfl

theorem recorded_call {c : CacheId} (q : Query c) :
    recorded w (Service.call q) (i, caches, h) =
      (((w i).upstream c q).mapError ProviderException.toException, i + 1, caches,
        ⟨.call q, (w i).upstream c q⟩ :: h) := by
  have hperform : recorded w (Prog.perform (R := Reply) (.call q) :
      Service D (Except ProviderException (Stored D c))) (i, caches, h) =
        (.ok ((w i).upstream c q), i + 1, caches, ⟨.call q, (w i).upstream c q⟩ :: h) := rfl
  rw [Service.call, recorded_bind, hperform]
  cases (w i).upstream c q with
  | ok value => rfl
  | error ex => rfl

theorem recorded_getOrFetch_of_hit {c : CacheId} {q : Query c} {fetch : Service D (Stored D c)}
    {v : Stored D c} (hhit : (caches c).usable (w i).now q.cacheKey = some v) :
    recorded w (Service.getOrFetch q fetch) (i, caches, h) =
      (.ok v, i + 1, caches.looked c (w i).now q.cacheKey,
        ⟨.cacheGet c q.cacheKey, some v⟩ :: h) := by
  rw [Service.getOrFetch, recorded_bind, recorded_cacheGet, hhit]
  rfl

theorem recorded_getOrFetch_of_miss {c : CacheId} {q : Query c} {fetch : Service D (Stored D c)}
    (hmiss : (caches c).usable (w i).now q.cacheKey = none) :
    recorded w (Service.getOrFetch q fetch) (i, caches, h) =
      match recorded w fetch (i + 1, caches.looked c (w i).now q.cacheKey,
          ⟨.cacheGet c q.cacheKey, none⟩ :: h) with
      | (.ok v, j, caches', h') =>
          (.ok v, j + 1, caches'.stored c (w j).now q.cacheKey v,
            ⟨.cachePut c q.cacheKey v, ()⟩ :: h')
      | (.error ex, st) => (.error ex, st) := by
  rw [Service.getOrFetch, recorded_bind, recorded_cacheGet, hmiss]
  change recorded w (fetch >>= _) _ = _
  rw [recorded_bind]
  rcases recorded w fetch _ with ⟨_ | v, j, caches', h'⟩
  · rfl
  · rfl

/-! ## Lookups of the list -/

/-- The list a lookup gives and where it leaves the request. -/
theorem recorded_listCurrencies_of_ok {list : List Currency}
    (hok : catalogAnswer w i caches = .ok list) :
    ∃ h', rateCalls h' = rateCalls h ∧
      recorded w CurrencyCatalogService.listCurrencies (i, caches, h) =
        (.ok list, (afterCatalog w i caches).1, (afterCatalog w i caches).2, h') := by
  unfold catalogAnswer at hok
  cases hu : (caches .currencies).usable (w i).now kCacheKey with
  | some found =>
      simp only [hu] at hok
      cases hok
      refine ⟨⟨.cacheGet .currencies kCacheKey, some list⟩ :: h, rfl, ?_⟩
      simp only [afterCatalog, hu]
      exact recorded_getOrFetch_of_hit (q := .listCurrencies) hu
  | none =>
      cases hup : (w (i + 1)).upstream .currencies .listCurrencies with
      | error ex => simp [hu, hup] at hok
      | ok fetched =>
          cases fetched with
          | nil => simp [hu, hup] at hok
          | cons cur rest =>
              simp only [hu, hup] at hok
              cases hok
              refine ⟨⟨.cachePut .currencies kCacheKey (cur :: rest), ()⟩ ::
                ⟨.call .listCurrencies, .ok (cur :: rest)⟩ ::
                ⟨.cacheGet .currencies kCacheKey, none⟩ :: h, ?_, ?_⟩
              · rfl
              · rw [CurrencyCatalogService.listCurrencies,
                  recorded_getOrFetch_of_miss (q := .listCurrencies) hu, recorded_bind,
                  recorded_call, hup]
                simp only [afterCatalog, hu, hup]
                rfl

/-- The program throws what becomes this status, without a call for a rate. -/
def Throws (w : ℕ → Tick D) (p : Service D α) (i : ℕ) (caches : Caches D) (h : History D)
    (code : StatusCode) : Prop :=
  ∃ ex st', (CurrencyServiceImpl.toStatus ex).code = code ∧ rateCalls st'.2.2 = rateCalls h ∧
    recorded w p (i, caches, h) = (.error ex, st')

theorem Throws.bind {p : Service D α} {code : StatusCode} (hp : Throws w p i caches h code)
    (f : α → Service D β) : Throws w (p >>= f) i caches h code := by
  obtain ⟨ex, st', hcode, hcalls, hrun⟩ := hp
  refine ⟨ex, st', hcode, hcalls, ?_⟩
  rw [recorded_bind, hrun]

theorem Throws.of_ok {p : Service D α} {a : α} {f : α → Service D β} {code : StatusCode} {j : ℕ}
    {caches' : Caches D} {h' : History D}
    (hrun : recorded w p (i, caches, h) = (.ok a, j, caches', h'))
    (hcalls : rateCalls h' = rateCalls h)
    (hf : Throws w (f a) j caches' h' code) : Throws w (p >>= f) i caches h code := by
  obtain ⟨ex, st', hcode, hcalls', hrest⟩ := hf
  refine ⟨ex, st', hcode, hcalls'.trans hcalls, ?_⟩
  rw [recorded_bind, hrun]
  exact hrest

theorem throws_throw {ex : Exception} {code : StatusCode}
    (hcode : (CurrencyServiceImpl.toStatus ex).code = code) :
    Throws w (throw ex : Service D α) i caches h code := ⟨ex, (i, caches, h), hcode, rfl, rfl⟩

theorem throws_listCurrencies {code : StatusCode}
    (herror : catalogAnswer w i caches = .error code) :
    Throws w CurrencyCatalogService.listCurrencies i caches h code := by
  unfold catalogAnswer at herror
  cases hu : (caches .currencies).usable (w i).now kCacheKey with
  | some found => simp [hu] at herror
  | none =>
      have hfetch : ∃ ex, (CurrencyServiceImpl.toStatus ex).code = code ∧
          recorded w CurrencyCatalogService.listCurrencies (i, caches, h) =
            (.error ex, i + 2, caches.looked .currencies (w i).now kCacheKey,
              ⟨.call .listCurrencies, (w (i + 1)).upstream .currencies .listCurrencies⟩ ::
                ⟨.cacheGet .currencies kCacheKey, none⟩ :: h) := by
        rw [CurrencyCatalogService.listCurrencies,
          recorded_getOrFetch_of_miss (q := .listCurrencies) hu, recorded_bind, recorded_call]
        cases hup : (w (i + 1)).upstream .currencies .listCurrencies with
        | error ex =>
            simp only [hu, hup] at herror
            cases herror
            refine ⟨ex.toException, ?_, rfl⟩
            cases ex with
            | unavailable => rfl
            | unexpectedResponse => rfl
            | other => rfl
        | ok fetched =>
            cases fetched with
            | cons cur rest => simp [hu, hup] at herror
            | nil =>
                simp only [hu, hup] at herror
                cases herror
                exact ⟨_, rfl, rfl⟩
      obtain ⟨ex, hcode, hrun⟩ := hfetch
      exact ⟨ex, _, hcode, rfl, hrun⟩

theorem recorded_isKnownCurrency {list : List Currency} (code : Str)
    (hok : catalogAnswer w i caches = .ok list) :
    ∃ h', rateCalls h' = rateCalls h ∧
      recorded w (CurrencyCatalogService.isKnownCurrency (toUpper code)) (i, caches, h) =
        (.ok (lists list (toUpper code)), (afterCatalog w i caches).1, (afterCatalog w i caches).2,
          h') := by
  obtain ⟨h', hcalls, hrun⟩ := recorded_listCurrencies_of_ok hok
  refine ⟨h', hcalls, ?_⟩
  rw [CurrencyCatalogService.isKnownCurrency, recorded_bind, hrun, toUpper_toUpper]
  rfl

theorem recorded_checkKnown_of_listed {list : List Currency} {code : Str}
    (hok : catalogAnswer w i caches = .ok list) (hlisted : lists list (toUpper code) = true)
    (role : Str) :
    ∃ h', rateCalls h' = rateCalls h ∧ recorded w (checkKnown role (toUpper code)) (i, caches, h) =
      (.ok (), (afterCatalog w i caches).1, (afterCatalog w i caches).2, h') := by
  obtain ⟨h', hcalls, hrun⟩ := recorded_isKnownCurrency code hok
  refine ⟨h', hcalls, ?_⟩
  rw [checkKnown, recorded_bind, hrun, hlisted]
  rfl

theorem throws_checkKnown_of_unlisted {list : List Currency} {code : Str}
    (hok : catalogAnswer w i caches = .ok list) (hunlisted : lists list (toUpper code) = false)
    (role : Str) : Throws w (checkKnown role (toUpper code)) i caches h .notFound := by
  obtain ⟨h', hcalls, hrun⟩ := recorded_isKnownCurrency code hok
  rw [hunlisted] at hrun
  exact .of_ok hrun hcalls (throws_throw rfl)

theorem throws_checkKnown_of_error {status : StatusCode} {code : Str}
    (herror : catalogAnswer w i caches = .error status) (role : Str) :
    Throws w (checkKnown role code) i caches h status :=
  ((throws_listCurrencies herror).bind _).bind _

theorem afterCatalog_latestRate :
    (afterCatalog w i caches).2 .latestRate = caches .latestRate := by
  have hne : CacheId.latestRate ≠ .currencies := by decide
  have hseen : caches.looked .currencies (w i).now kCacheKey .latestRate = caches .latestRate :=
    Function.update_of_ne hne _ _
  unfold afterCatalog
  split
  · dsimp only
    rw [Caches.stored, Function.update_of_ne hne, hseen]
  · exact hseen

end Recorded

/-! ## The conversion -/

section Convert

variable {w : ℕ → Tick D} {i : ℕ} {caches : Caches D} {h : History D} {r : ConvertRequest D}

/-- What `handle` makes of a conversion. -/
def served : Except Exception (ConversionResult D) → Outcome D
  | .ok result => .ok (.convert
      ⟨result.sourceAmount, result.convertedAmount, result.exchangeRate, result.rateDate⟩)
  | .error ex => .error (CurrencyServiceImpl.toStatus ex)

def Decided (r : ConvertRequest D) (v : Verdict D)
    (done : Except Exception (ConversionResult D) × Progress D) : Prop :=
  v.Describes r (served done.1) (rateCalls done.2.2.2) (done.2.2.1 .latestRate)

theorem Throws.decided {p : Service D (ConversionResult D)} {code : StatusCode}
    (hp : Throws w p i caches h code) (hcalls : rateCalls h = []) :
    Decided r (.rejected code) (recorded w p (i, caches, h)) := by
  obtain ⟨ex, st', rfl, hcalls', hrun⟩ := hp
  rw [hrun]
  exact ⟨⟨_, rfl⟩, hcalls'.trans hcalls⟩

/-- The rate from the cache, or the provider's answer to one call. -/
theorem decided_rate (hcalls : rateCalls h = []) :
    Decided r (match (caches .latestRate).usable (w i).now r.pair.cacheKey with
      | some rate => .cached rate
      | none =>
          match (w (i + 1)).upstream .latestRate r.pair with
          | .ok rate => .fetched rate
          | .error ex => .failed (providerCode ex))
      (recorded w (do
        let rate ← Service.getOrFetch r.pair (Service.call r.pair)
        return {
          sourceAmount := r.amount
          convertedAmount := r.amount * rate.rate
          exchangeRate := rate.rate
          rateDate := rate.date }) (i, caches, h)) := by
  rw [recorded_bind]
  cases hu : (caches .latestRate).usable (w i).now r.pair.cacheKey with
  | some rate =>
      rw [recorded_getOrFetch_of_hit hu]
      exact ⟨rfl, hcalls⟩
  | none =>
      rw [recorded_getOrFetch_of_miss hu, recorded_call]
      have hcalled : ∀ answer, rateCalls (⟨.call r.pair, answer⟩ ::
          ⟨.cacheGet .latestRate r.pair.cacheKey, none⟩ :: h) = [r.pair] := by
        intro answer
        change r.pair :: rateCalls h = [r.pair]
        rw [hcalls]
      cases hup : (w (i + 1)).upstream .latestRate r.pair with
      | error ex =>
          cases ex with
          | unavailable => exact ⟨⟨_, rfl⟩, hcalled _⟩
          | unexpectedResponse => exact ⟨⟨_, rfl⟩, hcalled _⟩
          | other => exact ⟨⟨_, rfl⟩, hcalled _⟩
      | ok rate =>
          refine ⟨rfl, hcalled (.ok rate), ?_⟩
          change ∃ e, find _ _ (Caches.stored _ .latestRate _ _ rate .latestRate).entries = some e ∧ _
          rw [Caches.stored, Function.update_self]
          exact ⟨_, find_put _ _ _ _, rfl⟩

/-- The conversion once both codes are known to be listed. -/
def priced (source target : Str) (amount : D) : Service D (ConversionResult D) := do
  if source = target then
    throw (.invalidArgument (str "source_currency and target_currency must differ"))
  let constraints ← ConstraintsService.getConstraints
  if !Double.isfinite amount ∨ amount < constraints.minAmount ∨ constraints.maxAmount < amount then
    throw (.invalidArgument (str "amount must be between " ++ Double.format constraints.minAmount ++
      str " and " ++ Double.format constraints.maxAmount))
  let query := Query.latestRate source target
  let rate ← Service.getOrFetch query (Service.call query)
  return {
    sourceAmount := amount
    convertedAmount := amount * rate.rate
    exchangeRate := rate.rate
    rateDate := rate.date }

theorem convert_eq (sourceCurrency targetCurrency : Str) (amount : D) :
    ConversionService.convert sourceCurrency targetCurrency amount = (do
      checkKnown (str "source") (toUpper sourceCurrency)
      checkKnown (str "target") (toUpper targetCurrency)
      priced (toUpper sourceCurrency) (toUpper targetCurrency) amount) := rfl

theorem decided_priced (hcalls : rateCalls h = []) :
    Decided r (if toUpper r.sourceCurrency = toUpper r.targetCurrency then .rejected .invalidArgument
      else if ¬ AmountInBounds r.amount then .rejected .invalidArgument
      else match (caches .latestRate).usable (w (i + 1)).now r.pair.cacheKey with
        | some rate => .cached rate
        | none =>
            match (w (i + 2)).upstream .latestRate r.pair with
            | .ok rate => .fetched rate
            | .error ex => .failed (providerCode ex))
      (recorded w (priced (toUpper r.sourceCurrency) (toUpper r.targetCurrency) r.amount)
        (i, caches, h)) := by
  unfold priced
  by_cases heq : toUpper r.sourceCurrency = toUpper r.targetCurrency
  · simp only [heq, if_true]
    exact (throws_throw rfl).decided hcalls
  · simp only [heq, if_false]
    have hclock : recorded w (ConstraintsService.getConstraints : Service D _) (i, caches, h) =
        (.ok ⟨ConstraintsService.kMinAmount, ConstraintsService.kMaxAmount, str "1999-01-04",
          (w i).today.format⟩, i + 1, caches, ⟨.systemClock, (w i).today⟩ :: h) := rfl
    have hcheck : (!Double.isfinite r.amount) = true ∨ r.amount < ConstraintsService.kMinAmount ∨
        ConstraintsService.kMaxAmount < r.amount ↔ ¬ AmountInBounds r.amount := by
      simp only [AmountInBounds, not_and_or, not_not, Bool.not_eq_true, Bool.not_eq_true']
    change Decided r _ (recorded w (_ >>= _) (i, caches, h))
    rw [recorded_bind, hclock]
    change Decided r _ (recorded w (ite _ _ _ : Service D (ConversionResult D)) _)
    by_cases hamount : AmountInBounds r.amount
    · rw [if_neg (not_not.mpr hamount), if_neg (mt hcheck.mp (not_not.mpr hamount))]
      exact decided_rate hcalls
    · rw [if_pos hamount, if_pos (hcheck.mpr hamount)]
      exact (throws_throw rfl).decided hcalls

theorem decided_convert (w : ℕ → Tick D) (caches : Caches D) (r : ConvertRequest D) :
    Decided r (documented w caches r)
      (recorded w (ConversionService.convert r.sourceCurrency r.targetCurrency r.amount)
        (0, caches, [])) := by
  rw [convert_eq]
  unfold documented
  cases hfirst : catalogAnswer w 0 caches with
  | error code =>
      exact ((throws_checkKnown_of_error hfirst (str "source")).bind _).decided rfl
  | ok list =>
      by_cases hsource : lists list (toUpper r.sourceCurrency) = true
      · obtain ⟨h₁, hcalls₁, hrun₁⟩ :=
          recorded_checkKnown_of_listed (h := []) hfirst hsource (str "source")
        simp only [hsource, Bool.not_true]
        rw [if_neg (by decide), recorded_bind, hrun₁]
        change Decided r _ (recorded w (_ >>= _) _)
        cases hsecond : catalogAnswer w (afterCatalog w 0 caches).1 (afterCatalog w 0 caches).2 with
        | error code =>
            exact ((throws_checkKnown_of_error hsecond (str "target")).bind _).decided hcalls₁
        | ok list' =>
            by_cases htarget : lists list' (toUpper r.targetCurrency) = true
            · obtain ⟨h₂, hcalls₂, hrun₂⟩ :=
                recorded_checkKnown_of_listed (h := h₁) hsecond htarget (str "target")
              simp only [htarget, Bool.not_true]
              rw [if_neg (by decide), recorded_bind, hrun₂]
              have hlatest : (afterCatalog w (afterCatalog w 0 caches).1
                  (afterCatalog w 0 caches).2).2 .latestRate = caches .latestRate :=
                afterCatalog_latestRate.trans afterCatalog_latestRate
              rw [← hlatest]
              exact decided_priced (hcalls₂.trans hcalls₁)
            · rw [Bool.not_eq_true] at htarget
              simp only [htarget, Bool.not_false, if_true]
              exact ((throws_checkKnown_of_unlisted hsecond htarget (str "target")).bind _).decided
                hcalls₁
      · rw [Bool.not_eq_true] at hsource
        simp only [hsource, Bool.not_false, if_true]
        exact ((throws_checkKnown_of_unlisted hfirst hsource (str "source")).bind _).decided rfl

theorem run_convert (w : ℕ → Tick D) (r : ConvertRequest D) (st : Progress D) :
    (CurrencyServiceImpl.serve (.convert r)).run (recording Server.answer) w st =
      (served (recorded w (ConversionService.convert r.sourceCurrency r.targetCurrency r.amount)
          st).1,
        (recorded w (ConversionService.convert r.sourceCurrency r.targetCurrency r.amount) st).2) := by
  rw [CurrencyServiceImpl.serve, CurrencyServiceImpl.Convert, CurrencyServiceImpl.handle, run_bind,
    run_except_bind, recorded]
  rcases (ConversionService.convert r.sourceCurrency r.targetCurrency r.amount).run.run
    (recording Server.answer) w st with ⟨_ | _, _⟩
  · rfl
  · rfl

end Convert

/-- The answer to a conversion that runs alone is the first that applies of the documented
ones, and the provider is called for a rate only where that one says so. -/
theorem convert_follows_documented_order (w : ℕ → Tick D) (caches : Caches D)
    (r : ConvertRequest D) :
    (documented w caches r).Describes r (outcome w caches (.convert r))
      (rateCalls (actions w caches (.convert r))) (cachesAfter w caches (.convert r) .latestRate) := by
  have hdecided := decided_convert w caches r
  have hrun := run_convert w r (0, caches, [])
  rw [run_recording] at hrun
  obtain ⟨hout, hstate⟩ := Prod.mk.inj hrun
  rw [Decided, ← hout, ← hstate] at hdecided
  exact hdecided

end CurrencyConverter
