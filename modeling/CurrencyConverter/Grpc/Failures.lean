import CurrencyConverter.Grpc.Outage

/-!
# Requests that fail

A handler caches an answer after the provider has given it and before it responds, so a
failed request has stored nothing of its own.  It may have dropped its own expired entry
and refreshed the currency list.
-/

namespace CurrencyConverter

open AtomicProgram Prog CoherentCache RecencyList TimeAndSizeBoundedCache

variable {D : Type}

/-! ## What a request alone leaves -/

section Alone

variable {w : ℕ → Tick D} {caches : Caches D} {h : History D}

theorem answer_of_not_about {t : Tick D} {a : Action D} {c : CacheId} (ha : a.about ≠ some c) :
    (Server.answer t caches a).2 c = caches c := by
  cases a with
  | cacheGet c' key => exact Function.update_of_ne (fun hc ↦ ha (congrArg some hc.symm)) _ _
  | cachePut c' key v => exact Function.update_of_ne (fun hc ↦ ha (congrArg some hc.symm)) _ _
  | call q => rfl
  | systemClock => rfl

@[simp] theorem answer_cacheGet (t : Tick D) (c : CacheId) (key : Str) :
    (Server.answer t caches (.cacheGet c key)).2 c = ((caches c).step (.get t.now key)).2 :=
  Function.update_self ..

@[simp] theorem answer_cachePut (t : Tick D) (c : CacheId) (key : Str) (v : Stored D c) :
    (Server.answer t caches (.cachePut c key v)).2 c = ((caches c).step (.put t.now key v)).2 :=
  Function.update_self ..

@[simp] theorem answer_call (t : Tick D) {c : CacheId} (q : Query c) :
    (Server.answer t caches (.call q)).2 = caches := rfl

theorem stateAfter_of_catalogOnly (hcat : CatalogOnly h) {c : CacheId} (hc : c ≠ .currencies) :
    stateAfter Server.answer w caches h c = caches c := by
  induction h with
  | nil => rfl
  | cons d h ih =>
      have hd : d.1.about ≠ some c := fun habout ↦ hc (hcat d List.mem_cons_self c habout)
      rw [stateAfter, answer_of_not_about hd]
      exact ih fun d' hd' ↦ hcat d' (List.mem_cons_of_mem d hd')

/-- What a cache holds after a request was there before, or the request put it there. -/
theorem mem_stateAfter {c : CacheId} {e : Entry Str (Stored D c) ℤ}
    (he : e ∈ (stateAfter Server.answer w caches h c).entries) :
    e ∈ (caches c).entries ∨ ⟨.cachePut c e.key e.value, ()⟩ ∈ h := by
  induction h with
  | nil => exact Or.inl he
  | cons d h ih =>
      have hold : e ∈ (stateAfter Server.answer w caches h c).entries →
          e ∈ (caches c).entries ∨ ⟨.cachePut c e.key e.value, ()⟩ ∈ d :: h :=
        fun hmem ↦ (ih hmem).imp_right (List.mem_cons_of_mem d)
      obtain ⟨a, reply⟩ := d
      by_cases hc : a.about = some c
      · cases a with
        | systemClock => cases hc
        | call q => exact hold he
        | cacheGet c' key =>
            cases hc
            rw [stateAfter, answer_cacheGet] at he
            rcases mem_step _ he with ⟨hmem, _⟩ | h
            · exact hold hmem
            · cases h
        | cachePut c' key v =>
            cases hc
            rw [stateAfter, answer_cachePut] at he
            rcases mem_step _ he with ⟨hmem, _⟩ | hput
            · exact hold hmem
            · obtain ⟨_, rfl, rfl⟩ := Op.put.inj hput
              exact Or.inr List.mem_cons_self
      · rw [stateAfter, answer_of_not_about hc] at he
        exact hold he

theorem stateAfter_maxAge (c : CacheId) :
    (stateAfter Server.answer w caches h c).cache.maxAge = (caches c).cache.maxAge := by
  induction h with
  | nil => rfl
  | cons d h ih =>
      obtain ⟨a, reply⟩ := d
      by_cases hc : a.about = some c
      · cases a with
        | systemClock => cases hc
        | call q => exact ih
        | cacheGet c' key =>
            cases hc
            rw [stateAfter, answer_cacheGet, step_maxAge, ih]
        | cachePut c' key v =>
            cases hc
            rw [stateAfter, answer_cachePut, step_maxAge, ih]
      · rw [stateAfter, answer_of_not_about hc, ih]

end Alone

section Path

variable [Double D] {w : ℕ → Tick D} {caches : Caches D} {h : History D} {req : Request D}
  {p : Prog (Action D) Reply (Outcome D)}

/-- The cached list stays, unless it was expired when the request looked for it. -/
theorem kept_or_expired (hpath : Path (CurrencyServiceImpl.serve req) h p)
    (hans : Answered Server.answer w caches h) {e : Entry Str (List Currency) ℤ}
    (he : e ∈ (caches .currencies).entries) (hkey : e.key = kCacheKey) :
    e ∈ (stateAfter Server.answer w caches h .currencies).entries ∨
      ∃ i < h.length, isExpired (caches .currencies).cache.maxAge (w i).now e.insertedAt = true := by
  induction h generalizing p with
  | nil => exact Or.inl he
  | cons d h ih =>
      obtain ⟨k, hpath'⟩ := hpath.act_of_cons
      rcases ih hpath' (hans.of_suffix (List.suffix_cons d h)) with hkept | ⟨i, hi, hexpired⟩
      · have hfollows := follows_of_cons hpath
        obtain ⟨a, reply⟩ := d
        by_cases hc : a.about = some .currencies
        · cases a with
          | systemClock => cases hc
          | call q => exact Or.inl hkept
          | cacheGet c key =>
              cases hc
              obtain ⟨q, rfl, _⟩ := hfollows.permits
              cases q
              have hget := kept_or_expired_of_get _ (w h.length).now hkept
              rw [hkey, stateAfter_maxAge] at hget
              rw [stateAfter, answer_cacheGet]
              exact hget.imp_right fun hexpired ↦ ⟨h.length, by simp, hexpired⟩
          | cachePut c key list =>
              cases hc
              obtain ⟨q, h', rfl, rfl, _⟩ := hfollows.permits
              cases q
              have hmiss := hans ⟨.cacheGet .currencies kCacheKey, none⟩ h'
                ((List.suffix_cons _ _).trans (List.suffix_cons _ _))
              have hgone : e ∉ (stateAfter Server.answer w caches
                  (⟨.cacheGet .currencies kCacheKey, none⟩ :: h') .currencies).entries := by
                rw [stateAfter, answer_cacheGet]
                exact fun hmem ↦ not_mem_of_miss _ hmiss.symm e hmem hkey
              exact absurd hkept hgone
        · rw [stateAfter, answer_of_not_about hc]
          exact Or.inl hkept
      · exact Or.inr ⟨i, Nat.lt_succ_of_lt hi, hexpired⟩

/-- A request that was refused after it had looked for its own answer called the provider
for it in vain, as its last action. -/
theorem refused_shape (hpath : Path (CurrencyServiceImpl.serve req) h p) {ex : Exception}
    (hrefused : Refused req h ex) :
    CatalogOnly h ∨ ∃ (c : CacheId) (q : Query c) (e : ProviderException) (h' : History D),
      c ≠ .currencies ∧ req.query = some ⟨c, q⟩ ∧ CatalogOnly h' ∧ ex = e.toException ∧
        h = ⟨.call q, .error e⟩ :: ⟨.cacheGet c q.cacheKey, none⟩ :: h' := by
  cases hrefused with
  | @provider _ _ c q e =>
      obtain ⟨h', rfl, hcat, hown, _⟩ := (follows_of_cons hpath).permits
      by_cases hc : c = .currencies
      · subst hc
        exact Or.inl ((hcat.cons _ (Or.inl rfl)).cons _ (Or.inl rfl))
      · exact Or.inr ⟨c, q, e, h', hc, hown.resolve_left hc, hcat, rfl, rfl⟩
  | emptyList _ _ _ hcat => exact Or.inl hcat
  | unknown _ _ _ hcat => exact Or.inl hcat
  | equalCodes _ _ _ hcat => exact Or.inl hcat
  | amount _ _ _ hcat => exact Or.inl hcat
  | malformed => exact Or.inl catalogOnly_nil
  | dates _ _ _ hcat => exact Or.inl hcat

end Path

/-! ## Failed requests -/

section Requests

variable [Double D] (w : ℕ → Tick D) (caches : Caches D) (req : Request D)

/-- What a request does that runs alone, its latest action first. -/
def actions : History D := (CurrencyServiceImpl.serve req).trace Server.answer w (0, caches) []

def cachesAfter : Caches D := ((CurrencyServiceImpl.serve req).run Server.answer w (0, caches)).2.2

theorem path_actions :
    Path (CurrencyServiceImpl.serve req) (actions w caches req) (.ret (outcome w caches req)) :=
  Path.start.trace (0, caches)

theorem answered_actions : Answered Server.answer w caches (actions w caches req) :=
  (answered_nil.trace (CurrencyServiceImpl.serve req)).1

theorem cachesAfter_eq :
    cachesAfter w caches req = stateAfter Server.answer w caches (actions w caches req) :=
  congrArg Prod.snd (answered_nil.trace (CurrencyServiceImpl.serve req)).2

/-- The entry under the request's own key was expired when it was looked up, and is all
that is gone. -/
def DroppedExpired (c : CacheId) : Prop :=
  ∃ (q : Query c) (e : Entry Str (Stored D c) ℤ), req.query = some ⟨c, q⟩ ∧
    find Entry.key q.cacheKey (caches c).entries = some e ∧
    (∃ i < (actions w caches req).length,
      isExpired (caches c).cache.maxAge (w i).now e.insertedAt = true) ∧
    (cachesAfter w caches req c).cache = (caches c).cache.forget q.cacheKey

/-- What a failed request may have done to the caches. -/
structure Unpoisoned : Prop where
  others : ∀ c, c ≠ .currencies → (cachesAfter w caches req c).cache = (caches c).cache ∨
    DroppedExpired w caches req c
  gained : ∀ e ∈ (cachesAfter w caches req .currencies).entries,
    e ∈ (caches .currencies).entries ∨ e.key = kCacheKey ∧ e.value ≠ [] ∧
      ⟨.call .listCurrencies, .ok e.value⟩ ∈ actions w caches req
  dropped : ∀ e ∈ (caches .currencies).entries, e.key = kCacheKey →
    e ∈ (cachesAfter w caches req .currencies).entries ∨
      ∃ i < (actions w caches req).length,
        isExpired (caches .currencies).cache.maxAge (w i).now e.insertedAt = true

variable {w caches req}

theorem explained_of_failure {status : Status} (hfail : outcome w caches req = .error status) :
    ∃ ex, Refused req (actions w caches req) ex ∧ status = CurrencyServiceImpl.toStatus ex := by
  have hexplained := ((holds_serve_explained req).of_path (path_actions w caches req)).2
  rw [hfail] at hexplained
  exact hexplained

theorem others_of_failure {status : Status} (hfail : outcome w caches req = .error status)
    {c : CacheId} (hc : c ≠ .currencies) :
    (cachesAfter w caches req c).cache = (caches c).cache ∨ DroppedExpired w caches req c := by
  obtain ⟨ex, hrefused, _⟩ := explained_of_failure hfail
  have hpath := path_actions w caches req
  rcases refused_shape hpath hrefused with hcat | ⟨c', q, e, h', _, hquery, hcat, _, hactions⟩
  · rw [cachesAfter_eq, stateAfter_of_catalogOnly hcat hc]
    exact Or.inl rfl
  · by_cases hcc : c' = c
    · subst hcc
      have hbefore : stateAfter Server.answer w caches h' c' = caches c' :=
        stateAfter_of_catalogOnly hcat hc
      have hmiss : ((caches c').step (.get (w h'.length).now q.cacheKey)).1 = none := by
        rw [← hbefore]
        exact (answered_actions w caches req ⟨.cacheGet c' q.cacheKey, none⟩ h'
          (hactions ▸ List.suffix_cons _ _)).symm
      have hafter : cachesAfter w caches req c' =
          ((caches c').step (.get (w h'.length).now q.cacheKey)).2 := by
        rw [cachesAfter_eq, hactions, stateAfter, answer_call, stateAfter, answer_cacheGet,
          hbefore]
      rcases (caches c').cache_of_miss hmiss with hsame | ⟨x, hf, hexpired, hforget⟩
      · rw [hafter]
        exact Or.inl hsame
      · refine Or.inr ⟨q, x, hquery, hf, ⟨h'.length, ?_, hexpired⟩, ?_⟩
        · rw [hactions, List.length_cons, List.length_cons]
          omega
        · rw [hafter]
          exact hforget
    · have hother : (Action.cacheGet c' q.cacheKey : Action D).about ≠ some c :=
        fun habout ↦ hcc (Option.some.inj habout)
      rw [cachesAfter_eq, hactions, stateAfter, answer_call, stateAfter, answer_of_not_about hother,
        stateAfter_of_catalogOnly hcat hc]
      exact Or.inl rfl

theorem unpoisoned_of_failure {status : Status} (hfail : outcome w caches req = .error status) :
    Unpoisoned w caches req where
  others c hc := others_of_failure hfail hc
  gained e he := by
    rw [cachesAfter_eq] at he
    rcases mem_stateAfter he with hold | hput
    · exact Or.inl hold
    · right
      obtain ⟨h', hs, hfollows⟩ := follows_of_mem (path_actions w caches req) hput
      obtain ⟨q, h'', hkey, rfl, _⟩ := hfollows.permits
      cases q
      refine ⟨hkey, fun hempty ↦ ?_, hs.mem (List.mem_cons_of_mem _ List.mem_cons_self)⟩
      have hstores := hfollows.stores
      simp [Action.storesEmptyList, hempty] at hstores
  dropped e he hkey := by
    rw [cachesAfter_eq]
    exact kept_or_expired (path_actions w caches req) (answered_actions w caches req) he hkey

/-- What a check rejects has not got beyond the currency list. -/
theorem catalogOnly_of_rejection {status : Status} (hfail : outcome w caches req = .error status)
    (hcode : status.code = .invalidArgument ∨ status.code = .notFound) :
    CatalogOnly (actions w caches req) := by
  obtain ⟨ex, hrefused, rfl⟩ := explained_of_failure hfail
  rcases refused_shape (path_actions w caches req) hrefused with
    hcat | ⟨_, _, e, _, _, _, _, rfl, _⟩
  · exact hcat
  · cases e with
    | unavailable what =>
        simp [CurrencyServiceImpl.toStatus, ProviderException.toException] at hcode
    | unexpectedResponse what =>
        simp [CurrencyServiceImpl.toStatus, ProviderException.toException] at hcode
    | other what => simp [CurrencyServiceImpl.toStatus, ProviderException.toException] at hcode

end Requests

/-! ## Runs -/

section Runs

variable [Double D] (limits : Limits) (schedule : Schedule D)

theorem cached_from_provider {c : CacheId} {e : Entry Str (Stored D c) ℤ}
    (he : e ∈ ((limits.run schedule).shared c).entries) :
    ∃ q : Query c, e.key = q.cacheKey ∧
      ∃ i w, .acted i w (.call q) (.ok e.value) ∈ (limits.run schedule).log := by
  rw [shared_run] at he
  obtain ⟨j, w, l, hput, _⟩ := exists_put_of_lastPut (lastPut_of_mem _ he)
  obtain ⟨q, hkey, _, w', l', hcall⟩ := exists_call_of_put hput
  exact ⟨q, hkey, j, w',
    ((List.suffix_cons _ _).trans hput).mem (hcall.mem List.mem_cons_self)⟩

theorem cached_list_ne_nil {e : Entry Str (List Currency) ℤ}
    (he : e ∈ ((limits.run schedule).shared .currencies).entries) : e.value ≠ [] := by
  rw [shared_run] at he
  obtain ⟨j, w, l, hput, _⟩ := exists_put_of_lastPut (lastPut_of_mem _ he)
  obtain ⟨req, _, hfollows⟩ := (legal_log limits schedule).permitted holds_serve_explained hput
  intro hempty
  have hstores := hfollows.stores
  simp [Action.storesEmptyList, hempty] at hstores

end Runs

/-- A failed request stores nothing but a list it was given, one that was rejected leaves
the rates and the histories alone, and in no run does a cache hold what the provider has
not returned. -/
theorem failed_request_poisons_no_cache [Double D] :
    (∀ (w : ℕ → Tick D) (caches : Caches D) (req : Request D) (status : Status),
      outcome w caches req = .error status → Unpoisoned w caches req ∧
        (status.code = .invalidArgument ∨ status.code = .notFound → ∀ c, c ≠ .currencies →
          ¬ Called c (actions w caches req) ∧ cachesAfter w caches req c = caches c)) ∧
    ∀ (limits : Limits) (schedule : Schedule D),
      (∀ c, ∀ e ∈ ((limits.run schedule).shared c).entries, ∃ q : Query c, e.key = q.cacheKey ∧
        ∃ i w, .acted i w (.call q) (.ok e.value) ∈ (limits.run schedule).log) ∧
      ∀ e ∈ ((limits.run schedule).shared .currencies).entries, e.value ≠ [] := by
  refine ⟨fun w caches req status hfail ↦ ⟨unpoisoned_of_failure hfail, fun hcode c hc ↦ ?_⟩,
    fun limits schedule ↦ ⟨fun c e he ↦ cached_from_provider limits schedule he,
      fun e he ↦ cached_list_ne_nil limits schedule he⟩⟩
  have hcat := catalogOnly_of_rejection hfail hcode
  constructor
  · rintro ⟨q, answer, hcall⟩
    exact hc (hcat _ hcall c rfl)
  · rw [cachesAfter_eq, stateAfter_of_catalogOnly hcat hc]

/-! ### A rate that is not renewed -/

/-- What is cached where the list was fetched at once and the rate 1435 minutes later. -/
def filled : Caches ℚ := (Limits.builtIn.run listExpires).shared

def ratesOffline : Upstream ℚ
  | _, .listCurrencies => .ok euroAndDollar
  | _, .latestRate source target => offline .latestRate (.latestRate source target)
  | _, .history source target range => offline .history (.history source target range)

/-- After two days both the list and the rate have expired. -/
def twoDays (_ : ℕ) : Tick ℚ := tickAt 2880 ratesOffline

def renewedList : Entry Str (List Currency) ℤ :=
  ⟨1, kCacheKey, euroAndDollar, 2880 * 60000000000⟩

def xxxToEur : Request ℚ := .convert ⟨str "XXX", str "EUR", 10⟩

/-- The conversion renews the list, drops its own rate and fails; the one from an unknown
currency renews the list alone. -/
theorem failed_request_poisons_no_cache_twoDays :
    Unpoisoned twoDays filled usdToEur ∧ DroppedExpired twoDays filled usdToEur .latestRate ∧
      (∃ e ∈ (cachesAfter twoDays filled usdToEur .currencies).entries,
        e ∉ (filled .currencies).entries ∧
          ⟨.call .listCurrencies, .ok e.value⟩ ∈ actions twoDays filled usdToEur) ∧
      ¬ Called .latestRate (actions twoDays filled xxxToEur) ∧
      cachesAfter twoDays filled xxxToEur .latestRate = filled .latestRate := by
  have hfailed : Unpoisoned twoDays filled usdToEur :=
    (failed_request_poisons_no_cache.1 _ _ _
      ⟨.unavailable, str "could not reach frankfurter.dev: Timeout"⟩
      (by with_unfolding_all rfl)).1
  have hrejected := (failed_request_poisons_no_cache.1 twoDays filled xxxToEur
    ⟨.notFound, str "unknown source currency 'XXX'"⟩ (by with_unfolding_all rfl)).2 (.inr rfl)
  refine ⟨hfailed, ?_, ?_, hrejected .latestRate (by decide)⟩
  · refine (hfailed.others .latestRate (by decide)).resolve_left fun hsame ↦ ?_
    have hfound : find Entry.key (str "USD|EUR") (filled .latestRate).entries = some rateEntry :=
      find_listExpires
    have hgone : find Entry.key (str "USD|EUR")
        (cachesAfter twoDays filled usdToEur .latestRate).entries = none := by
      with_unfolding_all rfl
    have hentries : (cachesAfter twoDays filled usdToEur .latestRate).entries =
        (filled .latestRate).entries := congrArg TimeAndSizeBoundedCache.entries hsame
    rw [hentries, hfound] at hgone
    cases hgone
  · have hnew : renewedList ∉ (filled .currencies).entries := by
      have hbefore : (filled .currencies).entries = [⟨0, kCacheKey, euroAndDollar, 0⟩] := by
        with_unfolding_all rfl
      rw [hbefore, List.mem_singleton]
      exact fun hsame ↦ absurd (congrArg Entry.node hsame) (by decide)
    have hafter : renewedList ∈ (cachesAfter twoDays filled usdToEur .currencies).entries :=
      List.mem_of_mem_head? (by with_unfolding_all rfl)
    exact ⟨_, hafter, hnew, ((hfailed.gained _ hafter).resolve_left hnew).2.2⟩

end CurrencyConverter
