import CurrencyConverter.Cache.Inclusion
import CurrencyConverter.Grpc.HistoryCaching

/-!
# Requests during an upstream outage

A request looks the currency list up twice before it looks at its own entry.
With the provider down a live entry is therefore returned exactly while the
cached list is live as well; once the list has expired, the answer is
`UNAVAILABLE`, however young the entry of the request is.
-/

namespace CurrencyConverter

open AtomicProgram Prog CoherentCache RecencyList TimeAndSizeBoundedCache

variable {D : Type}

def alone {α : Type} (w : ℕ → Tick D) (p : Service D α) (st : ℕ × Caches D) :
    Except Exception α × ℕ × Caches D :=
  p.run.run Server.answer w st

/-- The world of a request, given what its actions read and what the provider
answers them. -/
def ticks (now : ℕ → ℤ) (today : ℕ → CalendarDate) (upstream : ℕ → Upstream D) (i : ℕ) : Tick D :=
  ⟨now i, today i, upstream i⟩

def Caches.looked (caches : Caches D) (c : CacheId) (t : ℤ) (key : Str) : Caches D :=
  Function.update caches c ((caches c).step (.get t key)).2

section Alone

variable {w : ℕ → Tick D} {i : ℕ} {caches : Caches D}

theorem alone_bind {α β : Type} (p : Service D α) (f : α → Service D β) (st : ℕ × Caches D) :
    alone w (p >>= f) st = match alone w p st with
      | (.ok a, st') => alone w (f a) st'
      | (.error e, st') => (.error e, st') := by
  simp only [alone, run_except_bind]
  rcases p.run.run Server.answer w st with ⟨_ | _, _⟩
  · rfl
  · rfl

theorem alone_cacheGet (c : CacheId) (key : Str) :
    alone w (Service.cacheGet c key) (i, caches) =
      (.ok ((caches c).step (.get (w i).now key)).1, i + 1, caches.looked c (w i).now key) :=
  rfl

theorem alone_getOrFetch_of_hit {c : CacheId} {q : Query c} {fetch : Service D (Stored D c)}
    {v : Stored D c} (hhit : ((caches c).step (.get (w i).now q.cacheKey)).1 = some v) :
    alone w (Service.getOrFetch q fetch) (i, caches) =
      (.ok v, i + 1, caches.looked c (w i).now q.cacheKey) := by
  rw [Service.getOrFetch, alone_bind, alone_cacheGet, hhit]
  rfl

theorem alone_getOrFetch_of_failure {c : CacheId} {q : Query c} {fetch : Service D (Stored D c)}
    (hmiss : ((caches c).step (.get (w i).now q.cacheKey)).1 = none) {ex : Exception}
    {st : ℕ × Caches D} (hfetch : alone w fetch (i + 1, caches.looked c (w i).now q.cacheKey) =
      (.error ex, st)) :
    alone w (Service.getOrFetch q fetch) (i, caches) = (.error ex, st) := by
  rw [Service.getOrFetch, alone_bind, alone_cacheGet, hmiss]
  change alone w (fetch >>= _) _ = _
  rw [alone_bind, hfetch]

theorem alone_call {c : CacheId} (q : Query c) :
    alone w (Service.call q) (i, caches) =
      (((w i).upstream c q).mapError ProviderException.toException, i + 1, caches) := by
  have hanswer : alone w (Prog.perform (R := Reply) (.call q) :
      Service D (Except ProviderException (Stored D c))) (i, caches) =
        (.ok ((w i).upstream c q), i + 1, caches) := rfl
  rw [Service.call, alone_bind, hanswer]
  cases (w i).upstream c q with
  | ok value => rfl
  | error ex => rfl

/-- With a provider that answers, a service does to the cache of its query what
`lookup` does. -/
theorem alone_getOrFetch_eq_lookup {c : CacheId} {q : Query c} {v : Stored D c}
    (hanswer : (w (i + 1)).upstream c q = .ok v) :
    ∃ j, alone w (Service.getOrFetch q (Service.call q)) (i, caches) =
      (.ok (((caches c).lookup q.cacheKey ⟨(w i).now, (w (i + 2)).now, v⟩).1.getD v), j,
        Function.update caches c
          ((caches c).lookup q.cacheKey ⟨(w i).now, (w (i + 2)).now, v⟩).2) := by
  cases hget : ((caches c).step (.get (w i).now q.cacheKey)).1 with
  | some found =>
      refine ⟨i + 1, ?_⟩
      simp only [lookup, hget]
      exact alone_getOrFetch_of_hit hget
  | none =>
      refine ⟨i + 3, ?_⟩
      simp only [lookup, hget]
      rw [Service.getOrFetch, alone_bind, alone_cacheGet, hget]
      change alone w (Service.call q >>= _) _ = _
      rw [alone_bind, alone_call, hanswer]
      change (_, _, Function.update (caches.looked c (w i).now q.cacheKey) c _) = _
      rw [Caches.looked, Function.update_self, Function.update_idem]
      rfl

/-! ## The catalog during an outage -/

def ListLive (caches : Caches D) (t : ℤ) : Prop :=
  ∃ e, find Entry.key kCacheKey (caches .currencies).entries = some e ∧
    isExpired (caches .currencies).cache.maxAge t e.insertedAt = false

theorem alone_listCurrencies_of_live {e : Entry Str (List Currency) ℤ}
    (hf : find Entry.key kCacheKey (caches .currencies).entries = some e)
    (hx : isExpired (caches .currencies).cache.maxAge (w i).now e.insertedAt = false) :
    alone w CurrencyCatalogService.listCurrencies (i, caches) =
      (.ok e.value, i + 1, caches.looked .currencies (w i).now kCacheKey) :=
  alone_getOrFetch_of_hit ((caches .currencies).get_of_live hf hx).1

theorem alone_listCurrencies_of_outage (hdead : ¬ ListLive caches (w i).now)
    {ex : ProviderException}
    (hdown : (w (i + 1)).upstream .currencies .listCurrencies = .error ex) :
    ∃ st, alone w CurrencyCatalogService.listCurrencies (i, caches) =
      (.error ex.toException, st) := by
  have hmiss : ((caches .currencies).step (.get (w i).now kCacheKey)).1 = none := by
    apply get_of_not_live
    intro e hf
    by_contra hx
    exact hdead ⟨e, hf, by simpa using hx⟩
  refine ⟨(i + 1 + 1, caches.looked .currencies (w i).now kCacheKey), ?_⟩
  apply alone_getOrFetch_of_failure (q := .listCurrencies) hmiss
  rw [alone_bind, alone_call, hdown]
  rfl

theorem alone_checkKnown_of_live {e : Entry Str (List Currency) ℤ}
    (hf : find Entry.key kCacheKey (caches .currencies).entries = some e)
    (hx : isExpired (caches .currencies).cache.maxAge (w i).now e.insertedAt = false)
    {code : Str} (hcode : ∃ cur ∈ e.value, cur.code = toUpper code) (role : Str) :
    alone w (checkKnown role code) (i, caches) =
      (.ok (), i + 1, caches.looked .currencies (w i).now kCacheKey) := by
  have hknown : (e.value.any fun cur ↦ cur.code = toUpper code) = true := by
    obtain ⟨cur, hcur, hcode⟩ := hcode
    exact List.any_eq_true.mpr ⟨cur, hcur, by simpa using hcode⟩
  rw [checkKnown, alone_bind, CurrencyCatalogService.isKnownCurrency, alone_bind,
    alone_listCurrencies_of_live hf hx]
  change alone w (ite _ _ _ : Service D Unit) _ = _
  rw [hknown]
  rfl

theorem alone_checkKnown_of_outage (hdead : ¬ ListLive caches (w i).now) {ex : ProviderException}
    (hdown : (w (i + 1)).upstream .currencies .listCurrencies = .error ex) (role code : Str) :
    ∃ st, alone w (checkKnown role code) (i, caches) = (.error ex.toException, st) := by
  obtain ⟨st, hlist⟩ := alone_listCurrencies_of_outage hdead hdown
  refine ⟨st, ?_⟩
  rw [checkKnown, alone_bind, CurrencyCatalogService.isKnownCurrency, alone_bind, hlist]

theorem find_looked {e : Entry Str (List Currency) ℤ} {t : ℤ}
    (hf : find Entry.key kCacheKey (caches .currencies).entries = some e)
    (hx : isExpired (caches .currencies).cache.maxAge t e.insertedAt = false) :
    find Entry.key kCacheKey (caches.looked .currencies t kCacheKey .currencies).entries =
      some e := by
  rw [Caches.looked, Function.update_self]
  exact ((caches .currencies).get_of_live hf hx).2

theorem maxAge_looked (c : CacheId) (t : ℤ) (key : Str) :
    (caches.looked c t key c).cache.maxAge = (caches c).cache.maxAge := by
  rw [Caches.looked, Function.update_self, step_maxAge]

def Caches.checked (caches : Caches D) (w : ℕ → Tick D) : Caches D :=
  (caches.looked .currencies (w 0).now kCacheKey).looked .currencies (w 1).now kCacheKey

theorem checked_of_ne {c : CacheId} (hc : c ≠ .currencies) : caches.checked w c = caches c := by
  rw [Caches.checked, Caches.looked, Function.update_of_ne hc, Caches.looked,
    Function.update_of_ne hc]

variable {e : Entry Str (List Currency) ℤ} {source target : Str}

theorem alone_checkBoth_of_live {α : Type} {rest : Service D α} (hclock : (w 0).now ≤ (w 1).now)
    (hf : find Entry.key kCacheKey (caches .currencies).entries = some e)
    (hx : isExpired (caches .currencies).cache.maxAge (w 1).now e.insertedAt = false)
    (hsource : ∃ cur ∈ e.value, cur.code = toUpper source)
    (htarget : ∃ cur ∈ e.value, cur.code = toUpper target) :
    alone w (do
      checkKnown (str "source") (toUpper source)
      checkKnown (str "target") (toUpper target)
      rest) (0, caches) = alone w rest (2, caches.checked w) := by
  rw [← toUpper_toUpper] at hsource htarget
  have hx₀ : isExpired (caches .currencies).cache.maxAge (w 0).now e.insertedAt = false := by
    rw [isExpired_eq_false_iff] at hx ⊢
    omega
  rw [alone_bind, alone_checkKnown_of_live hf hx₀ hsource]
  change alone w (_ >>= _) _ = _
  rw [alone_bind, alone_checkKnown_of_live (find_looked hf hx₀) ?_ htarget]
  · rfl
  · rw [maxAge_looked]
    exact hx

theorem alone_checkBoth_of_outage {α : Type} {rest : Service D α}
    (hdead : ¬ ListLive caches (w 1).now)
    (hlisted : ∀ e, find Entry.key kCacheKey (caches .currencies).entries = some e →
      ∃ cur ∈ e.value, cur.code = toUpper source)
    {ex : ProviderException} (hdown : ∀ i, (w i).upstream .currencies .listCurrencies = .error ex) :
    ∃ st, alone w (do
      checkKnown (str "source") (toUpper source)
      checkKnown (str "target") (toUpper target)
      rest) (0, caches) = (.error ex.toException, st) := by
  by_cases hlive : ListLive caches (w 0).now
  · obtain ⟨e, hf, hx⟩ := hlive
    have hsource := hlisted e hf
    rw [← toUpper_toUpper] at hsource
    have hdead' : ¬ ListLive (caches.looked .currencies (w 0).now kCacheKey) (w 1).now := by
      rintro ⟨e', hf', hx'⟩
      obtain rfl : e = e' := Option.some.inj ((find_looked hf hx).symm.trans hf')
      rw [maxAge_looked] at hx'
      exact hdead ⟨e, hf, hx'⟩
    obtain ⟨st, hsecond⟩ :=
      alone_checkKnown_of_outage hdead' (hdown 2) (str "target") (toUpper target)
    refine ⟨st, ?_⟩
    rw [alone_bind, alone_checkKnown_of_live hf hx hsource]
    change alone w (_ >>= _) _ = _
    rw [alone_bind, hsecond]
  · obtain ⟨st, hfirst⟩ :=
      alone_checkKnown_of_outage hlive (hdown 1) (str "source") (toUpper source)
    refine ⟨st, ?_⟩
    rw [alone_bind, hfirst]

end Alone

/-! ## The requests -/

variable [Double D]

/-- Both codes are listed, they differ for a conversion, and the amount or the
dates are within the bounds. -/
def Valid (list : List Currency) (today : CalendarDate) : Request D → Prop
  | .convert r =>
      (∃ cur ∈ list, cur.code = toUpper r.sourceCurrency) ∧
      (∃ cur ∈ list, cur.code = toUpper r.targetCurrency) ∧
      toUpper r.sourceCurrency ≠ toUpper r.targetCurrency ∧ Double.isfinite r.amount = true ∧
      ¬ r.amount < ConstraintsService.kMinAmount ∧ ¬ ConstraintsService.kMaxAmount < r.amount
  | .getHistory r =>
      (∃ cur ∈ list, cur.code = toUpper r.sourceCurrency) ∧
      (∃ cur ∈ list, cur.code = toUpper r.targetCurrency) ∧
      ¬ r.startDate < str "1999-01-04" ∧ ¬ today.format < r.endDate
  | _ => False

inductive OkWith : Request D → {c : CacheId} → Query c → Stored D c → Outcome D → Prop
  | convert (r : ConvertRequest D) (rate : ExchangeRate D) :
      OkWith (.convert r) r.pair rate
        (.ok (.convert ⟨r.amount, r.amount * rate.rate, rate.rate, rate.date⟩))
  | getHistory (r : HistoryRequest) (q : Query .history) (points : List (ExchangeRate D)) :
      OkWith (.getHistory r) q points (historyResponse r points)

def outcome (w : ℕ → Tick D) (caches : Caches D) (req : Request D) : Outcome D :=
  ((CurrencyServiceImpl.serve req).run Server.answer w (0, caches)).1

theorem alone_getConstraints (w : ℕ → Tick D) (i : ℕ) (caches : Caches D) :
    alone w ConstraintsService.getConstraints (i, caches) =
      (.ok ⟨ConstraintsService.kMinAmount, ConstraintsService.kMaxAmount, str "1999-01-04",
        (w i).today.format⟩, i + 1, caches) := rfl

section Services

variable {w : ℕ → Tick D} {caches : Caches D} {x : Entry Str (List Currency) ℤ}
  (hclock : (w 0).now ≤ (w 1).now)
  (hlisted : find Entry.key kCacheKey (caches .currencies).entries = some x)
  (hlive : isExpired (caches .currencies).cache.maxAge (w 1).now x.insertedAt = false)

include hclock hlisted hlive

theorem alone_convert_of_live {r : ConvertRequest D}
    (hvalid : Valid x.value (w 2).today (.convert r))
    {rate : ExchangeRate D}
    (hhit : ((caches.checked w .latestRate).step (.get (w 3).now r.pair.cacheKey)).1 = some rate) :
    alone w (ConversionService.convert r.sourceCurrency r.targetCurrency r.amount) (0, caches) =
      (.ok ⟨r.amount, r.amount * rate.rate, rate.rate, rate.date⟩, 4,
        (caches.checked w).looked .latestRate (w 3).now r.pair.cacheKey) := by
  obtain ⟨hsource, htarget, hne, hfinite, hmin, hmax⟩ := hvalid
  refine (alone_checkBoth_of_live hclock hlisted hlive hsource htarget).trans ?_
  simp only [hne, if_false]
  rw [alone_bind, alone_getConstraints]
  simp only [hfinite, hmin, hmax, Bool.not_true, or_self]
  rw [if_neg (by simp), alone_bind]
  have hrate : alone w (Service.getOrFetch r.pair (Service.call r.pair)) (3, caches.checked w) =
      (.ok rate, 4, _) := alone_getOrFetch_of_hit hhit
  rw [ConvertRequest.pair] at hrate
  rw [hrate]
  rfl

theorem alone_getHistory_of_live {r : HistoryRequest}
    (hvalid : Valid x.value (w 2).today (.getHistory r : Request D)) {range : DateRange}
    (hstart : range.startDate = r.startDate) (hend : range.endDate = r.endDate)
    {points : List (ExchangeRate D)}
    (hhit : ((caches.checked w .history).step (.get (w 3).now
      (Query.history (toUpper r.sourceCurrency) (toUpper r.targetCurrency) range).cacheKey)).1 =
        some points) :
    alone w (HistoryService.getHistory r.sourceCurrency r.targetCurrency range) (0, caches) =
      (.ok points, 4, (caches.checked w).looked .history (w 3).now
        (Query.history (toUpper r.sourceCurrency) (toUpper r.targetCurrency) range).cacheKey) := by
  obtain ⟨hsource, htarget, hmin, hmax⟩ := hvalid
  rw [← hstart] at hmin
  rw [← hend] at hmax
  refine (alone_checkBoth_of_live hclock hlisted hlive hsource htarget).trans ?_
  rw [alone_bind, alone_getConstraints]
  simp only [hmin, hmax, or_self, if_false]
  exact alone_getOrFetch_of_hit hhit

end Services

section Handle

variable {w : ℕ → Tick D} {caches : Caches D} {work : Service D (Response D)}
  {st : ℕ × Caches D}

omit [Double D]

theorem handle_of_ok {response : Response D} (h : alone w work (0, caches) = (.ok response, st)) :
    ((CurrencyServiceImpl.handle work).run Server.answer w (0, caches)).1 = .ok response := by
  have hrun : work.run.run Server.answer w (0, caches) = (.ok response, st) := h
  rw [CurrencyServiceImpl.handle, run_bind, hrun]
  rfl

theorem handle_of_unavailable {what : Str}
    (h : alone w work (0, caches) = (.error (.externalApiUnavailable what), st)) :
    ((CurrencyServiceImpl.handle work).run Server.answer w (0, caches)).1 =
      .error ⟨.unavailable, what⟩ := by
  have hrun : work.run.run Server.answer w (0, caches) =
      (.error (.externalApiUnavailable what), st) := h
  rw [CurrencyServiceImpl.handle, run_bind, hrun]
  rfl

end Handle

section Requests

variable {w : ℕ → Tick D} {caches : Caches D} {list : List Currency}
  (hcached : ∀ e, find Entry.key kCacheKey (caches .currencies).entries = some e → e.value = list)

include hcached

theorem outcome_of_live (hclock : (w 0).now ≤ (w 1).now) (hlist : ListLive caches (w 1).now)
    {req : Request D} (hvalid : Valid list (w 2).today req) {c : CacheId} {q : Query c}
    (hquery : req.query = some ⟨c, q⟩) {e : Entry Str (Stored D c) ℤ}
    (hf : find Entry.key q.cacheKey (caches c).entries = some e)
    (hx : isExpired (caches c).cache.maxAge (w 3).now e.insertedAt = false) :
    OkWith req q e.value (outcome w caches req) := by
  obtain ⟨x, hfx, hxx⟩ := hlist
  have hhit : ∀ (hc : c ≠ .currencies),
      ((caches.checked w c).step (.get (w 3).now q.cacheKey)).1 = some e.value := by
    intro hc
    rw [checked_of_ne hc]
    exact ((caches c).get_of_live hf hx).1
  rw [← hcached x hfx] at hvalid
  cases req with
  | listCurrencies => cases hvalid
  | getConstraints => cases hvalid
  | convert r =>
      cases hquery
      have hconvert := alone_convert_of_live hclock hfx hxx hvalid (hhit (by decide))
      have hout : outcome w caches (.convert r) = .ok (.convert
          ⟨r.amount, r.amount * e.value.rate, e.value.rate, e.value.date⟩) := by
        apply handle_of_ok
        rw [alone_bind, hconvert]
        rfl
      rw [hout]
      exact OkWith.convert r e.value
  | getHistory r =>
      obtain ⟨range, hrange, heq⟩ := Request.query_getHistory hquery
      cases heq
      obtain ⟨hstart, hend⟩ := DateRange.construct_eq_ok.mp hrange
      have hhistory := alone_getHistory_of_live hclock hfx hxx hvalid hstart hend
        (hhit (by decide))
      have hout : outcome w caches (.getHistory r) = historyResponse r e.value := by
        apply handle_of_ok
        rw [hrange, alone_bind]
        change alone w (_ >>= _) (0, caches) = _
        rw [alone_bind, hhistory]
        rfl
      rw [hout]
      exact OkWith.getHistory r _ e.value

theorem outcome_of_outage (hdead : ¬ ListLive caches (w 1).now) {req : Request D}
    {today : CalendarDate} (hvalid : Valid list today req) {c : CacheId} {q : Query c}
    (hquery : req.query = some ⟨c, q⟩) {what : Str}
    (hdown : ∀ i, (w i).upstream .currencies .listCurrencies = .error (.unavailable what)) :
    outcome w caches req = .error ⟨.unavailable, what⟩ := by
  cases req with
  | listCurrencies => cases hvalid
  | getConstraints => cases hvalid
  | convert r =>
      have hlisted : ∀ e, find Entry.key kCacheKey (caches .currencies).entries = some e →
          ∃ cur ∈ e.value, cur.code = toUpper r.sourceCurrency :=
        fun e hf ↦ hcached e hf ▸ hvalid.1
      obtain ⟨st, hconvert⟩ : ∃ st, alone w
          (ConversionService.convert r.sourceCurrency r.targetCurrency r.amount) (0, caches) =
            (.error (.externalApiUnavailable what), st) :=
        alone_checkBoth_of_outage hdead hlisted hdown
      apply handle_of_unavailable
      rw [alone_bind, hconvert]
  | getHistory r =>
      have hlisted : ∀ e, find Entry.key kCacheKey (caches .currencies).entries = some e →
          ∃ cur ∈ e.value, cur.code = toUpper r.sourceCurrency :=
        fun e hf ↦ hcached e hf ▸ hvalid.1
      obtain ⟨range, hrange, -⟩ := Request.query_getHistory hquery
      obtain ⟨st, hhistory⟩ : ∃ st, alone w
          (HistoryService.getHistory r.sourceCurrency r.targetCurrency range) (0, caches) =
            (.error (.externalApiUnavailable what), st) :=
        alone_checkBoth_of_outage hdead hlisted hdown
      apply handle_of_unavailable
      rw [hrange, alone_bind]
      change alone w (_ >>= _) (0, caches) = _
      rw [alone_bind, hhistory]

end Requests

/-! ## Reachable states -/

theorem cached_list_eq {limits : Limits} {schedule : Schedule D} {list : List Currency}
    (hlist : ∀ i w fetched, .acted i w (.call .listCurrencies) (.ok fetched) ∈
      (limits.run schedule).log → fetched = list)
    {e : Entry Str (List Currency) ℤ}
    (hf : find Entry.key kCacheKey ((limits.run schedule).shared .currencies).entries = some e) :
    e.value = list := by
  obtain ⟨he, hkey⟩ := mem_of_find hf
  rw [shared_run] at he
  obtain ⟨j, w, l, hput, _⟩ := exists_put_of_lastPut (lastPut_of_mem _ he)
  obtain ⟨q, _, _, w', l', hcall⟩ := exists_call_of_put hput
  cases q
  exact hlist j w' e.value (((List.suffix_cons _ _).trans hput).mem (hcall.mem List.mem_cons_self))

/-- A live entry is returned whatever the provider does, and `UNAVAILABLE` is not,
exactly while the cached currency list is live at its second lookup. -/
theorem usable_entry_survives_outage_iff (limits : Limits) (schedule : Schedule D)
    {list : List Currency}
    (hlist : ∀ i w fetched, .acted i w (.call .listCurrencies) (.ok fetched) ∈
      (limits.run schedule).log → fetched = list)
    {now : ℕ → ℤ} (hclock : now 0 ≤ now 1) (today : ℕ → CalendarDate) {req : Request D}
    (hvalid : Valid list (today 2) req) {c : CacheId} {q : Query c}
    (hquery : req.query = some ⟨c, q⟩) {e : Entry Str (Stored D c) ℤ}
    (hentry : find Entry.key q.cacheKey ((limits.run schedule).shared c).entries = some e)
    (hlive : isExpired (limits.maxAge c) (now 3) e.insertedAt = false) :
    ((∀ upstream, OkWith req q e.value
        (outcome (ticks now today upstream) (limits.run schedule).shared req)) ↔
      ListLive (limits.run schedule).shared (now 1)) ∧
    ((∀ upstream what, outcome (ticks now today upstream) (limits.run schedule).shared req ≠
        .error ⟨.unavailable, what⟩) ↔
      ListLive (limits.run schedule).shared (now 1)) := by
  have hcached : ∀ e, find Entry.key kCacheKey
      ((limits.run schedule).shared .currencies).entries = some e → e.value = list :=
    fun e hf ↦ cached_list_eq hlist hf
  have hok : ListLive (limits.run schedule).shared (now 1) → ∀ upstream, OkWith req q e.value
      (outcome (ticks now today upstream) (limits.run schedule).shared req) := by
    intro hlistLive upstream
    rw [← maxAge_shared limits schedule] at hlive
    exact outcome_of_live (w := ticks now today upstream) hcached hclock hlistLive hvalid hquery
      hentry hlive
  have hdown : ¬ ListLive (limits.run schedule).shared (now 1) →
      outcome (ticks now today fun _ _ _ ↦ .error (.unavailable []))
        (limits.run schedule).shared req = .error ⟨.unavailable, []⟩ := by
    intro hdead
    exact outcome_of_outage (w := ticks now today fun _ _ _ ↦ .error (.unavailable [])) hcached
      hdead hvalid hquery fun _ ↦ rfl
  refine ⟨⟨fun h ↦ ?_, hok⟩, fun h ↦ ?_, fun hlistLive upstream what hout ↦ ?_⟩
  · by_contra hdead
    have hserved := h fun _ _ _ ↦ .error (.unavailable [])
    rw [hdown hdead] at hserved
    cases hserved
  · by_contra hdead
    exact h _ [] (hdown hdead)
  · have hserved := hok hlistLive upstream
    rw [hout] at hserved
    cases hserved

/-! ## The list expires first -/

/-- The list and a rate are fetched at once, the rate again after 1435 minutes. -/
def listExpires : Schedule ℚ :=
  inTurn 7 (tickAt 1435 (online 1 (str "2024-03-01"))) usdToEur
    9 (tickAt 0 (online 1 (str "2024-02-29"))) usdToEur

theorem fetched_listExpires : ∀ i w fetched, .acted i w (.call .listCurrencies) (.ok fetched) ∈
    (Limits.builtIn.run listExpires).log → fetched = euroAndDollar := by
  intro i w fetched hmem
  obtain ⟨hlist, hact⟩ := eq_upstream_of_call hmem
  rcases tick_of_inTurn hact with rfl | rfl
  · cases hlist
    rfl
  · cases hlist
    rfl

theorem valid_usdToEur : Valid euroAndDollar firstOfMarch usdToEur := by
  refine ⟨⟨⟨str "USD", str "United States Dollar"⟩, by decide, by decide⟩,
    ⟨⟨str "EUR", str "Euro"⟩, by decide, by decide⟩, by decide, rfl, ?_, ?_⟩
  · decide +kernel
  · decide +kernel

def rateEntry : Entry Str (ExchangeRate ℚ) ℤ :=
  ⟨1, str "USD|EUR", ⟨str "USD", str "EUR", 1, str "2024-03-01"⟩, 1435 * 60000000000⟩

theorem find_listExpires : find Entry.key (str "USD|EUR")
    ((Limits.builtIn.run listExpires).shared .latestRate).entries = some rateEntry := by
  with_unfolding_all rfl

/-- At minute 1441 the rate is six minutes old, the list a day and a minute. -/
theorem live_rate_unavailable :
    (∀ i w fetched, .acted i w (.call .listCurrencies) (.ok fetched) ∈
      (Limits.builtIn.run listExpires).log → fetched = euroAndDollar) ∧
    Valid euroAndDollar firstOfMarch usdToEur ∧
    find Entry.key (str "USD|EUR")
      ((Limits.builtIn.run listExpires).shared .latestRate).entries = some rateEntry ∧
    isExpired (Limits.builtIn.maxAge .latestRate) (1441 * 60000000000) rateEntry.insertedAt =
      false ∧
    outcome (fun _ ↦ tickAt 1441 offline) (Limits.builtIn.run listExpires).shared usdToEur =
      .error ⟨.unavailable, str "could not reach frankfurter.dev: Timeout"⟩ :=
  ⟨fetched_listExpires, valid_usdToEur, find_listExpires, by decide, by with_unfolding_all rfl⟩

theorem usable_entry_survives_outage_iff_listExpires :
    ((∀ upstream, OkWith usdToEur (.latestRate (str "USD") (str "EUR")) rateEntry.value
        (outcome (ticks (fun _ ↦ 1441 * 60000000000) (fun _ ↦ firstOfMarch) upstream)
          (Limits.builtIn.run listExpires).shared usdToEur)) ↔
      ListLive (Limits.builtIn.run listExpires).shared (1441 * 60000000000)) ∧
    ((∀ upstream what,
        outcome (ticks (fun _ ↦ 1441 * 60000000000) (fun _ ↦ firstOfMarch) upstream)
          (Limits.builtIn.run listExpires).shared usdToEur ≠ .error ⟨.unavailable, what⟩) ↔
      ListLive (Limits.builtIn.run listExpires).shared (1441 * 60000000000)) :=
  usable_entry_survives_outage_iff .builtIn listExpires fetched_listExpires (Int.le_refl _)
    (fun _ ↦ firstOfMarch) valid_usdToEur rfl find_listExpires (by decide)

end CurrencyConverter
