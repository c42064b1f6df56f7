import CurrencyConverter.Cache.Retention
import CurrencyConverter.Grpc.Progress
import CurrencyConverter.Grpc.Provenance

/-!
# The currency list and its cache

The cache of the list has a single key, so nothing is ever evicted from it and it is a
register that forgets after a day.  Whoever has the list from the provider stores it before
anything else, so a request that is done within a day fetches it once at most.
-/

namespace CurrencyConverter

open AtomicProgram Prog CoherentCache RecencyList TimeAndSizeBoundedCache

variable {D : Type}

/-- What was put last, for a day. -/
def keptList (now : ℤ) (ops : List (Op Str (List Currency) ℤ)) : Option (List Currency) :=
  match lastPut kCacheKey ops with
  | some (t, list) => if now - t ≤ 24 * 60 * 60000000000 then some list else none
  | none => none

/-! ## After a call of the provider -/

def calledLast (h : History D) : Bool :=
  match h with
  | ⟨.call _, _⟩ :: _ => true
  | _ => false

/-- Straight after an answer of the provider comes its `put`, and after an exception
nothing. -/
def StoresNext (h : History D) (a : Action D) : Prop :=
  ∀ c (q : Query c) r h', h = ⟨.call q, r⟩ :: h' → ∃ v, r = .ok v ∧ a = .cachePut c q.cacheKey v

/-- A service that returns has stored what it fetched. -/
def StoredAll {α : Type} (h : History D) : Except Exception α → Prop
  | .ok _ => calledLast h = false
  | .error _ => True

theorem storesNext_of_calledLast {h : History D} (hlast : calledLast h = false) (a : Action D) :
    StoresNext h a := by
  rintro c q r h' rfl
  cases hlast

section Services

variable {h : History D}

theorem stores_getOrFetch {c : CacheId} {q : Query c} {fetch : Service D (Stored D c)}
    (hlast : calledLast h = false)
    (hfetch : Holds StoresNext (fun h' out ↦ match out with
      | .ok v => ∃ h'', h' = ⟨.call q, .ok v⟩ :: h''
      | .error _ => True) (⟨.cacheGet c q.cacheKey, none⟩ :: h) fetch.run) :
    Holds StoresNext StoredAll h (Service.getOrFetch q fetch).run := by
  apply holds_getOrFetch (storesNext_of_calledLast hlast _) (fun _ ↦ rfl)
  apply hfetch.mono
  intro h' out hout
  cases out with
  | error ex => trivial
  | ok v =>
      obtain ⟨h'', rfl⟩ := hout
      refine ⟨?_, rfl⟩
      rintro c' q' r h₁ heq
      cases heq
      exact ⟨v, rfl, rfl⟩

theorem stores_call {c : CacheId} {q : Query c}
    {Post : History D → Except Exception (Stored D c) → Prop}
    (hok : ∀ v, Post (⟨.call q, .ok v⟩ :: ⟨.cacheGet c q.cacheKey, none⟩ :: h) (.ok v))
    (herr : ∀ h' ex, Post h' (.error ex)) :
    Holds StoresNext Post (⟨.cacheGet c q.cacheKey, none⟩ :: h) (Service.call q).run :=
  holds_call (storesNext_of_calledLast rfl _) hok fun _ ↦ herr _ _

theorem stores_lookup {c : CacheId} (q : Query c) (hlast : calledLast h = false) :
    Holds StoresNext StoredAll h (Service.getOrFetch q (Service.call q)).run := by
  apply stores_getOrFetch hlast
  exact stores_call (fun v ↦ ⟨_, rfl⟩) fun _ _ ↦ trivial

theorem stores_listCurrencies (hlast : calledLast h = false) :
    Holds StoresNext StoredAll h CurrencyCatalogService.listCurrencies.run := by
  apply stores_getOrFetch hlast
  rw [holds_run_bind]
  apply stores_call
  · intro list
    cases list with
    | nil => trivial
    | cons cur rest => exact ⟨_, rfl⟩
  · exact fun _ _ ↦ trivial

/-- The rule of composition for services that store what they fetch. -/
theorem stores_bind {α β : Type} {p : Service D α} {f : α → Service D β}
    (hp : Holds StoresNext StoredAll h p.run)
    (hf : ∀ h' a, calledLast h' = false → Holds StoresNext StoredAll h' (f a).run) :
    Holds StoresNext StoredAll h (p >>= f).run := by
  rw [holds_run_bind]
  apply hp.mono
  intro h' out hout
  cases out with
  | ok a => exact hf h' a hout
  | error ex => trivial

theorem stores_checkKnown (role code : Str) (hlast : calledLast h = false) :
    Holds StoresNext StoredAll h (checkKnown role code).run := by
  rw [checkKnown, CurrencyCatalogService.isKnownCurrency]
  apply stores_bind
  · apply stores_bind (stores_listCurrencies hlast)
    exact fun _ _ hlast ↦ hlast
  · intro h' known hlast
    split
    · trivial
    · exact hlast

variable [Double D]

theorem stores_getConstraints (hlast : calledLast h = false) :
    Holds StoresNext StoredAll h ConstraintsService.getConstraints.run :=
  holds_getConstraints (storesNext_of_calledLast hlast _) fun _ ↦ rfl

theorem stores_convert (source target : Str) (amount : D) :
    Holds StoresNext StoredAll [] (ConversionService.convert source target amount).run := by
  rw [ConversionService.convert]
  apply stores_bind (stores_checkKnown _ _ rfl)
  intro h _ hlast
  apply stores_bind (stores_checkKnown _ _ hlast)
  intro h _ hlast
  split
  · trivial
  · apply stores_bind (stores_getConstraints hlast)
    intro h constraints hlast
    split
    · trivial
    · apply stores_bind (stores_lookup _ hlast)
      exact fun _ _ hlast ↦ hlast

theorem stores_getHistory (source target : Str) (range : DateRange) :
    Holds StoresNext StoredAll ([] : History D)
      (HistoryService.getHistory source target range).run := by
  rw [HistoryService.getHistory]
  apply stores_bind (stores_checkKnown _ _ rfl)
  intro h _ hlast
  apply stores_bind (stores_checkKnown _ _ hlast)
  intro h _ hlast
  apply stores_bind (stores_getConstraints hlast)
  intro h constraints hlast
  split
  · trivial
  · exact stores_lookup _ hlast

theorem stores_serve (req : Request D) :
    Holds StoresNext (fun _ _ ↦ True) [] (CurrencyServiceImpl.serve req) := by
  have hhandle : ∀ {work : Service D (Response D)}, Holds StoresNext StoredAll [] work.run →
      Holds StoresNext (fun _ _ ↦ True) [] (CurrencyServiceImpl.handle work) := by
    intro work hwork
    apply holds_handle
    apply hwork.mono
    intro h out _
    cases out with
    | ok response => trivial
    | error ex => trivial
  cases req with
  | listCurrencies =>
      apply hhandle
      apply stores_bind (stores_listCurrencies rfl)
      exact fun _ _ hlast ↦ hlast
  | convert r =>
      apply hhandle
      apply stores_bind (stores_convert _ _ _)
      exact fun _ _ hlast ↦ hlast
  | getHistory r =>
      apply hhandle
      cases DateRange.construct r.startDate r.endDate with
      | error ex => trivial
      | ok range =>
          apply stores_bind (stores_getHistory _ _ range)
          exact fun _ _ hlast ↦ hlast
  | getConstraints =>
      apply hhandle
      apply stores_bind (stores_getConstraints rfl)
      exact fun _ _ hlast ↦ hlast

end Services

/-! ## Runs -/

section Runs

variable [Double D] {limits : Limits} {schedule : Schedule D} {l : Log D} {i : ℕ}

omit [Double D] in
theorem touched_get {c : CacheId} (cache : Cache D c) (now : ℤ) (k : Str) :
    (cache.record (.get now k)).touched = none ∨
      (cache.record (.get now k)).touched = some k := by
  cases hr : (cache.step (.get now k)).1 with
  | none => exact .inl (cache.touched_of_miss hr)
  | some v => exact .inr (cache.touched_of_hit hr)

/-- Every call of the cache of the list is for its one key. -/
theorem touched_currencies (hs : l <:+ (limits.run schedule).log) :
    ∀ call ∈ (limits.empty D .currencies).calls (cacheOps .currencies l),
      call.touched = none ∨ call.touched = some kCacheKey := by
  induction l with
  | nil => simp [cacheOps, calls]
  | cons e l ih =>
      have ih' := ih ((List.suffix_cons _ _).trans hs)
      cases hop : opOf .currencies e with
      | none => simpa [cacheOps, List.filterMap_cons_none hop] using ih'
      | some op =>
          rw [cacheOps, List.filterMap_cons_some hop, calls_cons]
          refine List.forall_mem_cons.mpr ⟨?_, ih'⟩
          unfold opOf at hop
          split at hop
          · split at hop
            · next i w c key r hc =>
              subst hc
              cases hop
              obtain ⟨req, -, q, rfl, -⟩ := permitted hs
              cases q
              exact touched_get _ _ _
            · cases hop
          · split at hop
            · next i w c key value r hc =>
              subst hc
              cases hop
              obtain ⟨req, -, q, h', rfl, -⟩ := permitted hs
              cases q
              exact .inr rfl
            · cases hop
          · split at hop
            · cases hop
              exact .inl rfl
            · cases hop
          · cases hop

theorem distinctSince_eq_empty {η K : Type} [DecidableEq K] {label : η → Option K} {k : K}
    {history : List η} (h : ∀ e ∈ history, label e = none ∨ label e = some k) :
    distinctSince label k history = ∅ := by
  induction history with
  | nil => exact distinctSince_nil
  | cons e earlier ih =>
      obtain ⟨he, hearlier⟩ := List.forall_mem_cons.mp h
      rcases he with he | he
      · rw [distinctSince_cons_none he, ih hearlier]
      · exact distinctSince_cons_same he earlier

/-- Under a steady clock the cache of the list is a register that forgets after a day: in
every run a lookup finds exactly what was put last, and nothing a day later. -/
theorem catalog_is_a_register (limits : Limits) (schedule : Schedule D)
    (hclock : NonDecreasing (cacheOps .currencies (limits.run schedule).log)) {w : Tick D}
    {key : Str} {found : Option (List Currency)}
    (hlookup : .acted i w (.cacheGet .currencies key) found :: l <:+ (limits.run schedule).log) :
    found = keptList w.now (cacheOps .currencies l) := by
  have hl : l <:+ (limits.run schedule).log := (List.suffix_cons _ _).trans hlookup
  obtain ⟨req, -, q, rfl, -⟩ := permitted hlookup
  cases q
  have hanswer : found = (((limits.empty D .currencies).after (cacheOps .currencies l)).step
      (.get w.now kCacheKey)).1 := by
    rw [← sharedAfter_eq_after]
    exact (legal_log limits schedule).answered hlookup
  have hops : .get w.now kCacheKey :: cacheOps .currencies l <:+
      cacheOps .currencies (limits.run schedule).log := hlookup.filterMap (opOf .currencies)
  have hclock' : NonDecreasing (.get w.now kCacheKey :: cacheOps .currencies l) :=
    List.Pairwise.sublist hops.sublist hclock
  have hstored : ∀ list, found = some list →
      ∃ t, lastPut kCacheKey (cacheOps .currencies l) = some (t, list) ∧
        w.now - t ≤ 24 * 60 * 60000000000 := by
    intro list hfound
    obtain ⟨t, hlast, hx⟩ := lastPut_of_hit _ (hanswer.symm.trans hfound)
    exact ⟨t, hlast, isExpired_eq_false_iff.mp hx⟩
  unfold keptList
  cases hlast : lastPut kCacheKey (cacheOps .currencies l) with
  | none =>
      cases hfound : found with
      | none => rfl
      | some list =>
          obtain ⟨t, hlast', -⟩ := hstored list hfound
          cases hlast.symm.trans hlast'
  | some put =>
      obtain ⟨t, list⟩ := put
      by_cases hage : w.now - t ≤ 24 * 60 * 60000000000
      · have hfew : (distinctSince Call.touched kCacheKey
            ((limits.empty D .currencies).calls (cacheOps .currencies l))).card <
              limits.maxElements .currencies := by
          rw [distinctSince_eq_empty (touched_currencies hl)]
          exact limits.maxElements_pos .currencies
        have hhit := hit_of_retained (limits.maxAge .currencies)
          (limits.maxElements_pos .currencies) hclock' hlast hage hfew
        rw [hanswer]
        simp only [hage, if_true]
        exact hhit
      · simp only [hage, if_false]
        cases hfound : found with
        | none => rfl
        | some list' =>
            obtain ⟨t', hlast', hage'⟩ := hstored list' hfound
            cases hlast.symm.trans hlast'
            exact absurd hage' hage

theorem steady_twoConversions :
    NonDecreasing (cacheOps .currencies (Limits.builtIn.run (twoConversions 5)).log) := by
  have hops : cacheOps .currencies (Limits.builtIn.run (twoConversions 5)).log =
      [.get (5 * 60000000000) kCacheKey, .get (5 * 60000000000) kCacheKey,
        .get (0 * 60000000000) kCacheKey, .put (0 * 60000000000) kCacheKey euroAndDollar,
        .get (0 * 60000000000) kCacheKey] := by
    with_unfolding_all rfl
  rw [hops]
  simp [NonDecreasing, Reads]

/-- Five minutes after the first request has stored the list, the second one finds it. -/
theorem catalog_is_a_register_after_five_minutes :
    some euroAndDollar = keptList (5 * 60000000000)
      (cacheOps .currencies (Limits.builtIn.run (twoConversions 0)).log) := by
  have hlookup : .acted 1 (tickAt 5 (online (9 / 10) (str "2024-03-01")))
      (.cacheGet .currencies kCacheKey) (some euroAndDollar) ::
        (Limits.builtIn.run (twoConversions 0)).log <:+
          (Limits.builtIn.run (twoConversions 5)).log :=
    ⟨(Limits.builtIn.run (twoConversions 5)).log.take 4, by with_unfolding_all rfl⟩
  exact catalog_is_a_register .builtIn (twoConversions 5) steady_twoConversions hlookup

/-! ## How often the provider is called -/

omit [Double D] in
theorem exists_next {α : Type} {x y : α} {l t : List α} (h : x :: t <:+ l) :
    ∃ z, z :: x :: t <:+ y :: l := by
  obtain ⟨later, rfl⟩ := h
  refine ⟨(y :: later).getLast (List.cons_ne_nil y later), (y :: later).dropLast, ?_⟩
  rw [List.append_cons, List.dropLast_append_getLast, List.cons_append]

/-- Who looks the list up after it has fetched it has stored it in between. -/
theorem stored_of_called {h : History D} {req : Request D} {p : Prog (Action D) Reply (Outcome D)}
    {c : CacheId} {key : Str} {found : Option (Stored D c)}
    (hpath : Path (CurrencyServiceImpl.serve req) (⟨.cacheGet c key, found⟩ :: h) p)
    {c' : CacheId} {q : Query c'} {r : Except ProviderException (Stored D c')}
    (hcall : ⟨.call q, r⟩ ∈ h) : ∃ v, ⟨.cachePut c' q.cacheKey v, ()⟩ ∈ h := by
  obtain ⟨before, hbefore⟩ := exists_suffix_of_mem hcall
  obtain ⟨z, hz⟩ := exists_next (y := (⟨.cacheGet c key, found⟩ : Done (Action D) Reply)) hbefore
  obtain ⟨p', hpath'⟩ := hpath.of_suffix hz
  obtain ⟨k, hact⟩ := hpath'.act_of_cons
  obtain ⟨v, -, hput⟩ := ((stores_serve req).of_path hact).1 _ q r before rfl
  obtain ⟨a, reply⟩ := z
  obtain rfl : a = .cachePut c' q.cacheKey v := hput
  rcases List.mem_cons.mp (hz.mem List.mem_cons_self) with heq | hmem
  · cases heq
  · exact ⟨v, hmem⟩

/-- Calls of the provider for the list, and for anything else. -/
def listCall : ActionKind → ℕ
  | .call .currencies => 1
  | _ => 0

def ownCall : ActionKind → ℕ
  | .call .currencies => 0
  | .call _ => 1
  | _ => 0

/-- Thread `i` took at most a day for its actions. -/
def WithinADay (i : ℕ) (log : Log D) : Prop :=
  ∀ w a r w' a' r', .acted i w a r ∈ log → .acted i w' a' r' ∈ log →
    w.now - w'.now ≤ 24 * 60 * 60000000000

/-- Before a thread fetches the list it has not fetched it yet. -/
theorem not_called_before_call
    (hclock : NonDecreasing (cacheOps .currencies (limits.run schedule).log))
    (hday : WithinADay i (limits.run schedule).log) {w : Tick D}
    {r : Except ProviderException (List Currency)}
    (hs : .acted i w (.call .listCurrencies) r :: l <:+ (limits.run schedule).log)
    (r' : Except ProviderException (List Currency)) :
    ⟨.call .listCurrencies, r'⟩ ∉ project i l := by
  intro hcall
  have hl : l <:+ (limits.run schedule).log := (List.suffix_cons _ _).trans hs
  obtain ⟨req, hreq, h', hproject, -⟩ := permitted hs
  rw [hproject] at hcall
  have hcall' : ⟨.call .listCurrencies, r'⟩ ∈ h' := by simpa using hcall
  obtain ⟨p, hpath⟩ := ((legal_log limits schedule).of_suffix hl).path hreq
  rw [hproject] at hpath
  obtain ⟨list, hput⟩ := stored_of_called hpath hcall'
  -- the lookup just before the call is later than that `put`, and found nothing
  obtain ⟨w₁, l₁, hlookup, hproject₁⟩ := exists_acted_of_project hproject
  have hlookup' := hlookup.trans hl
  have hmiss := catalog_is_a_register limits schedule hclock hlookup'
  rw [← hproject₁] at hput
  obtain ⟨w₀, hput₀⟩ := mem_project.mp hput
  have hmem : .put w₀.now kCacheKey list ∈ cacheOps .currencies l₁ :=
    List.mem_filterMap.mpr ⟨_, hput₀, opOf_eq_put.mpr ⟨i, w₀, rfl, rfl⟩⟩
  obtain ⟨t, list', hlast⟩ := exists_lastPut_of_mem hmem
  have hclock' : NonDecreasing (cacheOps .currencies l₁) :=
    List.Pairwise.sublist
      ((((List.suffix_cons _ _).trans hlookup').filterMap (opOf .currencies)).sublist) hclock
  have hle : w₀.now ≤ t := le_of_lastPut hclock' hmem hlast
  have hage : w₁.now - w₀.now ≤ 24 * 60 * 60000000000 :=
    hday _ _ _ _ _ _ (hlookup'.mem List.mem_cons_self)
      (hlookup'.mem (List.mem_cons_of_mem _ hput₀))
  have hfresh : w₁.now - t ≤ 24 * 60 * 60000000000 := by omega
  simp only [keptList, hlast, hfresh, if_true] at hmiss
  cases hmiss

omit [Double D] in
theorem eq_call_of_listCall {a : Action D} (h : costOf listCall a ≠ 0) :
    ∃ q : Query .currencies, a = .call q := by
  cases a with
  | @call c q =>
      cases q with
      | listCurrencies => exact ⟨_, rfl⟩
      | latestRate source target => exact absurd rfl h
      | history source target range => exact absurd rfl h
  | _ => exact absurd rfl h

omit [Double D] in
theorem exists_acted_of_suffix {log : Log D} {a : Action D} {r : Reply a} {h : History D}
    (hs : ⟨a, r⟩ :: h <:+ project i log) :
    ∃ w l, .acted i w a r :: l <:+ log ∧ project i l = h := by
  obtain ⟨later, hlater⟩ := hs
  induction later generalizing log with
  | nil => exact exists_acted_of_project hlater.symm
  | cons d later ih =>
      obtain ⟨w, l, hl, hproject⟩ := exists_acted_of_project hlater.symm
      obtain ⟨w', l', hl', hproject'⟩ := ih hproject.symm
      exact ⟨w', l', hl'.trans ((List.suffix_cons _ _).trans hl), hproject'⟩

/-- A request that takes at most a day fetches the list at most once, although it looks it
up for each of its codes, and makes at most one other call of the provider. -/
theorem one_call_for_the_list (limits : Limits) (schedule : Schedule D)
    (hclock : NonDecreasing (cacheOps .currencies (limits.run schedule).log))
    (hday : WithinADay i (limits.run schedule).log) :
    spent (costOf listCall) (project i (limits.run schedule).log) ≤ 1 ∧
      spent (costOf ownCall) (project i (limits.run schedule).log) ≤ 1 := by
  constructor
  · apply spent_le_one
    · intro a
      unfold costOf listCall
      split
      · exact Nat.le_refl 1
      · exact Nat.zero_le 1
    · rintro ⟨a, r⟩ h hs hcost
      obtain ⟨w, l, hacted, rfl⟩ := exists_acted_of_suffix hs
      rw [spent_eq_zero]
      rintro ⟨a', r'⟩ hd
      by_contra hcost'
      obtain ⟨q, rfl⟩ := eq_call_of_listCall hcost
      obtain ⟨q', rfl⟩ := eq_call_of_listCall hcost'
      cases q
      cases q'
      exact not_called_before_call hclock hday hacted r' hd
  · cases hreq : requestOf i (limits.run schedule).log with
    | none => rw [(legal_log limits schedule).project_eq_nil hreq, spent_nil]; exact Nat.zero_le 1
    | some req =>
        apply (Machine.spent_le (legal_log limits schedule) hreq (atMost_serve ownCall req)).trans
        cases req with
        | _ => simp [Request.most, visitsOf, visit, ownCall]

theorem one_call_for_the_list_of_twoConversions :
    spent (costOf listCall) (project 0 (Limits.builtIn.run (twoConversions 5)).log) ≤ 1 ∧
      spent (costOf ownCall) (project 0 (Limits.builtIn.run (twoConversions 5)).log) ≤ 1 := by
  have hday : WithinADay 0 (Limits.builtIn.run (twoConversions 5)).log := by
    intro w a r w' a' r' hw hw'
    have hnow : ∀ {w : Tick ℚ}, .act 0 w ∈ twoConversions 5 →
        w.now = 5 * 60000000000 ∨ w.now = 0 * 60000000000 := by
      intro w hact
      exact (tick_of_inTurn hact).imp (congrArg Tick.now) (congrArg Tick.now)
    have ht := hnow (Machine.act_of_acted _ _ hw)
    have ht' := hnow (Machine.act_of_acted _ _ hw')
    omega
  exact one_call_for_the_list .builtIn (twoConversions 5) steady_twoConversions hday

end Runs

end CurrencyConverter
