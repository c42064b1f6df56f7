import CurrencyConverter.Grpc.Progress
import CurrencyConverter.Grpc.Provenance
import CurrencyConverter.Library.PlainRun

/-!
# Caches that nobody can see

While the provider keeps to its answers, a request is answered as if there were no caches,
no sweepers and no other requests.
-/

namespace CurrencyConverter

open AtomicProgram Prog

variable {D : Type}

/-! ## Without caches -/

/-- Nothing is ever found in a cache. -/
def withoutCaches (up : Upstream D) (today : CalendarDate) : (a : Action D) → Reply a
  | .cacheGet _ _ => none
  | .cachePut _ _ _ => ()
  | .call q => up _ q
  | .systemClock => today

/-- What is found under a key is what the provider says to its query. -/
def Faithful (up : Upstream D) (today : CalendarDate) : (a : Action D) → Reply a → Prop
  | .cacheGet c key, found => ∀ v, found = some v → ∃ q : Query c, key = q.cacheKey ∧
      (∀ code ∈ q.codes, bar ∉ code) ∧ up c q = .ok v ∧
      (Action.cachePut c key v).storesEmptyList = false
  | .cachePut _ _ _, _ => True
  | .call q, answer => answer = up _ q
  | .systemClock, reading => reading = today

/-- The provider lists no code with a bar. -/
def ListsNoBar (up : Upstream D) : Prop :=
  ∀ list, up .currencies .listCurrencies = .ok list → ∀ cur ∈ list, bar ∉ cur.code

/-- The caches make no difference to the service. -/
abbrev Transparent {α : Type} (up : Upstream D) (today : CalendarDate) (p : Service D α) : Prop :=
  Plain (Faithful up today) (withoutCaches up today) p.run

section Services

variable {up : Upstream D} {today : CalendarDate}

theorem transparent_call {c : CacheId} (q : Query c) :
    Transparent up today (Service.call q) := by
  rw [Transparent, Service.call]
  apply (plain_perform (a := Action.call q) fun _ hr ↦ hr).run_bind
  intro answer _
  cases answer with
  | ok v => rfl
  | error ex => rfl

theorem eval_call {c : CacheId} (q : Query c) :
    eval (withoutCaches up today) (Service.call q).run = match up c q with
      | .ok v => .ok v
      | .error ex => .error ex.toException := by
  rw [Service.call, eval_run_bind]
  change eval _ (match up c q with
    | .ok v => pure v
    | .error ex => throw ex.toException : Service D (Stored D c)).run = _
  cases up c q with
  | ok v => rfl
  | error ex => rfl

theorem eval_getOrFetch {c : CacheId} (q : Query c) (fetch : Service D (Stored D c)) :
    eval (withoutCaches up today) (Service.getOrFetch q fetch).run =
      eval (withoutCaches up today) fetch.run := by
  rw [Service.getOrFetch, eval_run_bind]
  change eval _ (fetch >>= _ : Service D (Stored D c)).run = _
  rw [eval_run_bind]
  cases eval (withoutCaches up today) fetch.run with
  | ok v => rfl
  | error ex => rfl

theorem transparent_getOrFetch {c : CacheId} {q : Query c} {fetch : Service D (Stored D c)}
    (hcodes : ∀ code ∈ q.codes, bar ∉ code) (hfetch : Transparent up today fetch)
    (hhit : ∀ v, up c q = .ok v → (Action.cachePut c q.cacheKey v).storesEmptyList = false →
      eval (withoutCaches up today) fetch.run = .ok v) :
    Transparent up today (Service.getOrFetch q fetch) := by
  rw [Transparent, Plain, eval_getOrFetch, Service.getOrFetch]
  apply settles_perform_bind (Action.cacheGet c q.cacheKey)
  intro found hfound
  cases found with
  | some v =>
      obtain ⟨q', hkey, hcodes', hanswer, hstores⟩ := hfound v rfl
      obtain rfl := Query.eq_of_cacheKey hcodes hcodes' hkey
      exact (hhit v hanswer hstores).symm
  | none =>
      apply hfetch.settles_bind
      · exact fun v hv _ _ ↦ hv.symm
      · exact fun ex hex ↦ hex

theorem transparent_lookup {c : CacheId} {q : Query c} (hcodes : ∀ code ∈ q.codes, bar ∉ code) :
    Transparent up today (Service.getOrFetch q (Service.call q)) := by
  apply transparent_getOrFetch hcodes (transparent_call q)
  intro v hanswer _
  rw [eval_call, hanswer]

theorem eval_listCurrencies {list : List Currency}
    (hlist : up .currencies .listCurrencies = .ok list) (hne : list.isEmpty = false) :
    eval (withoutCaches up today) CurrencyCatalogService.listCurrencies.run = .ok list := by
  rw [CurrencyCatalogService.listCurrencies, eval_getOrFetch, eval_run_bind, eval_call, hlist]
  simp only [hne]
  rfl

theorem transparent_listCurrencies :
    Transparent up today CurrencyCatalogService.listCurrencies := by
  apply transparent_getOrFetch (by simp [Query.codes])
  · apply (transparent_call .listCurrencies).run_bind
    intro list _
    split
    · rfl
    · rfl
  · intro list hlist hstores
    rw [← eval_getOrFetch .listCurrencies]
    exact eval_listCurrencies hlist hstores

theorem answer_of_eval_listCurrencies {list : List Currency}
    (h : eval (withoutCaches up today) CurrencyCatalogService.listCurrencies.run = .ok list) :
    up .currencies .listCurrencies = .ok list := by
  rw [CurrencyCatalogService.listCurrencies, eval_getOrFetch, eval_run_bind, eval_call] at h
  cases hlist : up .currencies .listCurrencies with
  | error ex =>
      rw [hlist] at h
      cases h
  | ok list' =>
      rw [hlist] at h
      by_cases hempty : list'.isEmpty = true
      · simp only [hempty, if_true] at h
        cases h
      · simp only [hempty] at h
        cases h
        rfl

theorem transparent_checkKnown (role code : Str) :
    Transparent up today (checkKnown role code) := by
  have hknown : Transparent up today (CurrencyCatalogService.isKnownCurrency code) := by
    apply transparent_listCurrencies.run_bind
    exact fun _ _ ↦ rfl
  apply hknown.run_bind
  intro known _
  split
  · rfl
  · rfl

/-- A code that passes the check is one that the provider lists. -/
theorem not_mem_bar_of_checkKnown (hbars : ListsNoBar up) {role code : Str} {u : Unit}
    (h : eval (withoutCaches up today) (checkKnown role code).run = .ok u) :
    bar ∉ toUpper code := by
  rw [checkKnown, eval_run_bind, CurrencyCatalogService.isKnownCurrency, eval_run_bind] at h
  cases hlist : eval (withoutCaches up today) CurrencyCatalogService.listCurrencies.run with
  | error ex =>
      rw [hlist] at h
      cases h
  | ok list =>
      rw [hlist] at h
      by_cases hknown : (list.any fun cur ↦ cur.code = toUpper code) = true
      · obtain ⟨cur, hcur, hcode⟩ := List.any_eq_true.mp hknown
        have hcode' : cur.code = toUpper code := by simpa using hcode
        rw [← hcode']
        exact hbars list (answer_of_eval_listCurrencies hlist) cur hcur
      · change eval _ (ite ((!list.any fun cur ↦ cur.code = toUpper code) = true) _ _ :
          Service D Unit).run = _ at h
        rw [if_pos (by simpa using hknown)] at h
        cases h

theorem not_mem_bar_of_checked (hbars : ListsNoBar up)
    {role role' source target : Str} {u u' : Unit}
    (hsource : eval (withoutCaches up today) (checkKnown role (toUpper source)).run = .ok u)
    (htarget : eval (withoutCaches up today) (checkKnown role' (toUpper target)).run = .ok u') :
    ∀ code ∈ [toUpper source, toUpper target], bar ∉ code := by
  have hsource' := not_mem_bar_of_checkKnown hbars hsource
  have htarget' := not_mem_bar_of_checkKnown hbars htarget
  rw [toUpper_toUpper] at hsource' htarget'
  intro code hcode
  rcases List.mem_pair.mp hcode with rfl | rfl
  · exact hsource'
  · exact htarget'

variable [Double D]

theorem transparent_getConstraints :
    Transparent up today ConstraintsService.getConstraints := by
  apply (plain_perform (a := Action.systemClock) fun _ hr ↦ hr).run_bind
  exact fun _ _ ↦ rfl

theorem transparent_convert (hbars : ListsNoBar up) (source target : Str) (amount : D) :
    Transparent up today (ConversionService.convert source target amount) := by
  rw [ConversionService.convert]
  apply (transparent_checkKnown _ _).run_bind
  intro _ hsource
  apply (transparent_checkKnown _ _).run_bind
  intro _ htarget
  split
  · rfl
  · apply transparent_getConstraints.run_bind
    intro constraints _
    split
    · rfl
    · apply (transparent_lookup (q := .latestRate (toUpper source) (toUpper target))
        (not_mem_bar_of_checked hbars hsource htarget)).run_bind
      exact fun _ _ ↦ rfl

theorem transparent_getHistory (hbars : ListsNoBar up) (source target : Str) (range : DateRange) :
    Transparent up today (HistoryService.getHistory source target range) := by
  rw [HistoryService.getHistory]
  apply (transparent_checkKnown _ _).run_bind
  intro _ hsource
  apply (transparent_checkKnown _ _).run_bind
  intro _ htarget
  apply transparent_getConstraints.run_bind
  intro constraints _
  split
  · rfl
  · exact transparent_lookup (not_mem_bar_of_checked hbars hsource htarget)

omit [Double D] in
theorem plain_handle {work : Service D (Response D)} (hwork : Transparent up today work) :
    Plain (Faithful up today) (withoutCaches up today) (CurrencyServiceImpl.handle work) := by
  rw [Plain, CurrencyServiceImpl.handle, eval_bind]
  apply hwork.bind
  cases eval (withoutCaches up today) work.run with
  | ok response => rfl
  | error ex => rfl

theorem plain_serve (hbars : ListsNoBar up) (req : Request D) :
    Plain (Faithful up today) (withoutCaches up today) (CurrencyServiceImpl.serve req) := by
  cases req with
  | listCurrencies =>
      apply plain_handle
      apply transparent_listCurrencies.run_bind
      exact fun _ _ ↦ rfl
  | convert r =>
      apply plain_handle
      apply (transparent_convert hbars _ _ _).run_bind
      exact fun _ _ ↦ rfl
  | getHistory r =>
      apply plain_handle
      cases DateRange.construct r.startDate r.endDate with
      | error ex => rfl
      | ok range =>
          apply (transparent_getHistory hbars _ _ range).run_bind
          exact fun _ _ ↦ rfl
  | getConstraints =>
      apply plain_handle
      apply transparent_getConstraints.run_bind
      exact fun _ _ ↦ rfl

end Services

/-! ## Runs -/

/-- The provider keeps to its answers. -/
def KeepsAnswers (up : Upstream D) (schedule : Schedule D) : Prop :=
  ∀ i w, .act i w ∈ schedule → w.upstream = up

def clockReading : ActionKind → ℕ
  | .systemClock => 1
  | _ => 0

/-- Who reads the clock at most once sees one day. -/
theorem exists_today {h : History D} (honce : spent (costOf clockReading) h ≤ 1) :
    ∃ today : CalendarDate, ∀ reading : CalendarDate, ⟨.systemClock, reading⟩ ∈ h →
      reading = today := by
  induction h with
  | nil => exact ⟨firstOfMarch, fun _ hmem ↦ nomatch hmem⟩
  | cons d earlier ih =>
      obtain ⟨a, r⟩ := d
      rw [spent_cons] at honce
      by_cases hclock : a = .systemClock
      · subst hclock
        have hnone : spent (costOf clockReading) earlier = 0 :=
          Nat.le_zero.mp (Nat.le_of_add_le_add_left honce)
        refine ⟨r, fun reading hmem ↦ ?_⟩
        rcases List.mem_cons.mp hmem with heq | hmem
        · cases heq
          rfl
        · cases spent_eq_zero.mp hnone _ hmem
      · obtain ⟨today, htoday⟩ := ih (Nat.le_trans (Nat.le_add_left _ _) honce)
        refine ⟨today, fun reading hmem ↦ ?_⟩
        rcases List.mem_cons.mp hmem with heq | hmem
        · cases heq
          exact absurd rfl hclock
        · exact htoday reading hmem

section Runs

variable [Double D] {limits : Limits} {schedule : Schedule D} {l : Log D} {i : ℕ}
  {up : Upstream D}

theorem KeepsAnswers.codesWithoutBar (hkeeps : KeepsAnswers up schedule) (hbars : ListsNoBar up) :
    CodesWithoutBar (limits.run schedule).log := by
  intro i w list hcall cur hcur
  obtain ⟨hlist, hact⟩ := eq_upstream_of_call hcall
  rw [hkeeps i w hact] at hlist
  exact hbars list hlist.symm cur hcur

/-- What a thread finds in a cache is what the provider says. -/
theorem faithful_of_hit (hkeeps : KeepsAnswers up schedule) (hbars : ListsNoBar up) {c : CacheId}
    {w : Tick D} {key : Str} {v : Stored D c} {today : CalendarDate}
    (hs : .acted i w (.cacheGet c key) (some v) :: l <:+ (limits.run schedule).log) :
    Faithful up today (.cacheGet c key) (some v) := by
  rintro _ ⟨⟩
  obtain ⟨j, w₀, l₀, hput, -, -⟩ := exists_put_of_hit hs
  have hput' := hput.trans ((List.suffix_cons _ _).trans hs)
  obtain ⟨req, -, hfollows⟩ := (legal_log limits schedule).permitted holds_serve_explained hput'
  obtain ⟨q, rfl, hknown, w₁, l₁, hcall⟩ := exists_call_of_put hput'
  have hl₀ : l₀ <:+ (limits.run schedule).log := (List.suffix_cons _ _).trans hput'
  obtain ⟨hanswer, hact⟩ := eq_upstream_of_call (hl₀.mem (hcall.mem List.mem_cons_self))
  rw [hkeeps j w₁ hact] at hanswer
  exact ⟨q, rfl, (hkeeps.codesWithoutBar hbars).codes hl₀ hknown, hanswer.symm, hfollows.stores⟩

theorem faithful_of_project (hkeeps : KeepsAnswers up schedule) (hbars : ListsNoBar up)
    (hl : l <:+ (limits.run schedule).log) {today : CalendarDate}
    (htoday : ∀ reading : CalendarDate, ⟨.systemClock, reading⟩ ∈ project i l → reading = today) :
    ∀ d ∈ project i l, Faithful up today d.1 d.2 := by
  rintro ⟨a, r⟩ hd
  obtain ⟨w, hacted⟩ := mem_project.mp hd
  cases a with
  | systemClock => exact htoday r hd
  | cachePut c key v => trivial
  | call q =>
      obtain ⟨hanswer, hact⟩ := eq_upstream_of_call (hl.mem hacted)
      rw [hkeeps i w hact] at hanswer
      exact hanswer
  | cacheGet c key =>
      cases r with
      | none => exact fun _ hnone ↦ nomatch hnone
      | some v =>
          obtain ⟨earlier, hearlier⟩ := exists_suffix_of_mem hacted
          exact faithful_of_hit hkeeps hbars (hearlier.trans hl)

/-- While the provider keeps to its answers, every request of every run gets the outcome
that it would get alone and without caches, on the day on which it read the clock. -/
theorem caches_are_transparent (limits : Limits) (schedule : Schedule D)
    (hkeeps : KeepsAnswers up schedule) (hbars : ListsNoBar up) {before : Log D} {out : Outcome D}
    (hs : .responded i out :: before <:+ (limits.run schedule).log) :
    ∃ req today, requestOf i before = some req ∧
      (∀ w reading, .acted i w .systemClock reading ∈ before → reading = today) ∧
      out = eval (withoutCaches up today) (CurrencyServiceImpl.serve req) := by
  have hlegal := legal_log limits schedule
  have hbefore : before <:+ (limits.run schedule).log := (List.suffix_cons _ _).trans hs
  obtain ⟨req, hreq, -⟩ := hlegal.result holds_serve hs
  have honce : spent (costOf clockReading) (project i before) ≤ 1 := by
    apply (Machine.spent_le (hlegal.of_suffix hbefore) hreq (atMost_serve clockReading req)).trans
    cases req with
    | _ => simp [Request.most, visitsOf, visit, clockReading]
  obtain ⟨today, htoday⟩ := exists_today honce
  refine ⟨req, today, hreq, fun w reading hread ↦ htoday reading (mem_project.mpr ⟨w, hread⟩), ?_⟩
  exact hlegal.eq_eval hreq (plain_serve hbars req)
    (faithful_of_project hkeeps hbars hbefore htoday) hs

end Runs

/-- The second request finds the rate that the first one stored, and says what it would have
said without it. -/
theorem caches_are_transparent_to_twoConversions :
    ∃ req today, requestOf 1 (Limits.builtIn.run (twoConversions 4)).log = some req ∧
      (∀ w reading, .acted 1 w .systemClock reading ∈ (Limits.builtIn.run (twoConversions 4)).log →
        reading = today) ∧
      .ok (.convert ⟨10, 10 * (9 / 10), 9 / 10, str "2024-03-01"⟩) =
        eval (withoutCaches (online (9 / 10) (str "2024-03-01")) today)
          (CurrencyServiceImpl.serve req) := by
  have hkeeps : KeepsAnswers (online (9 / 10) (str "2024-03-01")) (twoConversions 5) := by
    intro i w hact
    rcases tick_of_inTurn hact with rfl | rfl
    · rfl
    · rfl
  have hbars : ListsNoBar (online (9 / 10) (str "2024-03-01")) := by
    intro list hlist cur hcur
    cases hlist
    simp only [euroAndDollar, List.mem_cons, List.not_mem_nil, or_false] at hcur
    rcases hcur with rfl | rfl
    · decide
    · decide
  have hs : .responded 1 (.ok (.convert ⟨10, 10 * (9 / 10), 9 / 10, str "2024-03-01"⟩)) ::
      (Limits.builtIn.run (twoConversions 4)).log <:+
        (Limits.builtIn.run (twoConversions 5)).log :=
    ⟨[], by with_unfolding_all rfl⟩
  exact caches_are_transparent .builtIn (twoConversions 5) hkeeps hbars hs

end CurrencyConverter
