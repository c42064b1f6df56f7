import CurrencyConverter.Domain.IsoDate
import CurrencyConverter.Grpc.Behaviour

/-!
# Which history requests are admitted

The checks of `GetHistory` are spread over the constructor of the range, the service
and its catalog, and compare dates as strings.  Together they admit the requests whose
codes are listed and whose dates, read as numbers, are in order and within the bounds.
-/

namespace CurrencyConverter

open AtomicProgram Prog

variable {D : Type}

namespace HistoryRequest

/-- Both dates have the shape of a date, and the first is not after the second. -/
def WellFormed (r : HistoryRequest) : Prop :=
  isIsoDate r.startDate = true ∧ isIsoDate r.endDate = true ∧
    dateNumbers r.startDate ≤ dateNumbers r.endDate

def Listed (r : HistoryRequest) (list : List Currency) : Prop :=
  (∃ cur ∈ list, cur.code = toUpper r.sourceCurrency) ∧
    ∃ cur ∈ list, cur.code = toUpper r.targetCurrency

def InBounds (r : HistoryRequest) (today : CalendarDate) : Prop :=
  ymd 1999 1 4 ≤ dateNumbers r.startDate ∧ dateNumbers r.endDate ≤ today.numbers

theorem wellFormed_iff {r : HistoryRequest} :
    r.WellFormed ↔ ∃ range, DateRange.construct r.startDate r.endDate = .ok range :=
  DateRange.construct_eq_ok_iff.symm

theorem inBounds_iff {r : HistoryRequest} (hr : r.WellFormed) {today : CalendarDate} :
    r.InBounds today ↔ ¬ r.startDate < str "1999-01-04" ∧ ¬ today.format < r.endDate := by
  rw [isoDate_not_lt_iff hr.1 isIsoDate_minDate, isoDate_not_lt_iff today.isIsoDate_format hr.2.1,
    dateNumbers_minDate, today.dateNumbers_format]
  rfl

end HistoryRequest

/-- Every lookup of the currency list succeeded with this list; a fetched one is not
empty then. -/
structure LookupsGive (list : List Currency) (h : History D) : Prop where
  cached : ∀ key found, ⟨.cacheGet .currencies key, some found⟩ ∈ h → found = list
  fetched : ∀ answer, ⟨.call .listCurrencies, answer⟩ ∈ h → answer = .ok list ∧ list ≠ []

namespace LookupsGive

variable {list : List Currency} {h h' : History D}

theorem of_suffix (hlist : LookupsGive list h) (hs : h' <:+ h) : LookupsGive list h' :=
  ⟨fun key found hget ↦ hlist.cached key found (hs.mem hget),
    fun answer hcall ↦ hlist.fetched answer (hs.mem hcall)⟩

theorem listed_of_known (hlist : LookupsGive list h) {code : Str} (hknown : Known code h) :
    ∃ cur ∈ list, cur.code = code := by
  obtain ⟨found, hcode, hget | hcall⟩ := hknown
  · obtain rfl := hlist.cached _ _ hget
    exact hcode
  · obtain ⟨⟨⟩, _⟩ := hlist.fetched _ hcall
    exact hcode

theorem eq_of_obtained (hlist : LookupsGive list h) {found : List Currency}
    (hobtained : Obtained h .listCurrencies found) : found = list := by
  rcases hobtained.seen with hget | hcall
  · exact hlist.cached _ _ hget
  · obtain ⟨⟨⟩, _⟩ := hlist.fetched _ hcall
    rfl

end LookupsGive

section History

variable [Double D] {r : HistoryRequest} {list : List Currency} {today : CalendarDate}
  {h : History D} {out : Outcome D}

theorem path_serve {p : Prog (Action D) Reply (Outcome D)}
    (hpath : Path (CurrencyServiceImpl.GetHistory r) h p) :
    Path (CurrencyServiceImpl.serve (.getHistory r)) h p := hpath

theorem valid_of_consulted {p : Prog (Action D) Reply (Outcome D)}
    (hpath : Path (CurrencyServiceImpl.GetHistory r) h p) (hlist : LookupsGive list h)
    (htoday : ∀ d, ⟨.systemClock, d⟩ ∈ h → d = today) (hconsulted : Consulted .history h) :
    r.WellFormed ∧ r.Listed list ∧ r.InBounds today := by
  obtain ⟨key, reply, hget⟩ := hconsulted
  obtain ⟨h', hs, ⟨q, _, hasks⟩, hadmitted, _⟩ :=
    follows_of_mem (path_serve hpath) hget
  have hs' : h' <:+ h := (List.suffix_cons _ _).trans hs
  obtain ⟨hknown, d, hclock, hbounds⟩ := hadmitted .history rfl (by decide)
  obtain rfl := htoday d (hs'.mem hclock)
  have hlist' := hlist.of_suffix hs'
  have hr : r.WellFormed := by
    rw [HistoryRequest.wellFormed_iff]
    rcases hasks.2.1 with hc | hquery
    · cases hc
    · obtain ⟨range, hrange, -⟩ := Request.query_getHistory hquery
      exact ⟨range, hrange⟩
  refine ⟨hr, ⟨hlist'.listed_of_known ?_, hlist'.listed_of_known ?_⟩,
    (HistoryRequest.inBounds_iff hr).mpr hbounds⟩
  · exact hknown _ List.mem_cons_self
  · exact hknown _ (List.mem_cons_of_mem _ List.mem_cons_self)

/-- The only cache beside that of the currencies is the one of the request's query. -/
theorem consulted_of_other {p : Prog (Action D) Reply (Outcome D)}
    (hpath : Path (CurrencyServiceImpl.GetHistory r) h p) {d : Done (Action D) Reply} (hd : d ∈ h)
    {c : CacheId} (hc : d.1.about = some c) (hne : c ≠ .currencies) : Consulted .history h := by
  obtain ⟨key, reply, hget⟩ := consulted_of_about (path_serve hpath) hd hc
  obtain ⟨h', _, ⟨q, _, hasks⟩, _, _⟩ := follows_of_mem (path_serve hpath) hget
  rcases hasks.2.1 with rfl | hquery
  · exact absurd rfl hne
  · obtain ⟨range, -, heq⟩ := Request.query_getHistory hquery
    cases heq
    exact ⟨key, reply, hget⟩

theorem path_of_malformed {p : Prog (Action D) Reply (Outcome D)} {ex : Exception}
    (hrange : DateRange.construct r.startDate r.endDate = .error ex)
    (hpath : Path (CurrencyServiceImpl.GetHistory r) h p) :
    h = [] ∧ p = .ret (.error (CurrencyServiceImpl.toStatus ex)) := by
  have hcode : (CurrencyServiceImpl.GetHistory r : Prog (Action D) Reply (Outcome D)) =
      .ret (.error (CurrencyServiceImpl.toStatus ex)) := by
    rw [CurrencyServiceImpl.GetHistory, hrange]
    rfl
  rw [hcode] at hpath
  have hret := Path.start.eq_of_ret hpath List.nil_suffix
  subst hret
  exact ⟨rfl, hpath.unique .start⟩

theorem consulted_of_ok {response : Response D}
    (hpath : Path (CurrencyServiceImpl.GetHistory r) h (.ret (.ok response)))
    (hanswers : Answers (.getHistory r) h (.ok response)) : Consulted .history h := by
  cases response with
  | listCurrencies currencies => cases hanswers.1
  | getConstraints response => cases hanswers
  | convert response =>
      obtain ⟨_, _, ⟨⟩, _⟩ := hanswers
  | getHistory response =>
      obtain ⟨_, _, _, _, _, hobtained, _⟩ := hanswers
      exact consulted_of_obtained (path_serve hpath) hobtained

/-- A request that was refused by a check of the service, rather than by the provider's
answer to its own query. -/
theorem refused_cases {ex : Exception} (hr : r.WellFormed) (hlist : LookupsGive list h)
    (htoday : ∀ d, ⟨.systemClock, d⟩ ∈ h → d = today)
    (hrefused : Refused (.getHistory r : Request D) h ex) :
    (∃ d ∈ h, ∃ c, d.1.about = some c ∧ c ≠ .currencies) ∨ CatalogOnly h ∧
      (¬ r.Listed list ∧ (∃ what, ex = .currencyNotFound what) ∨
        r.Listed list ∧ ¬ r.InBounds today ∧ ∃ what, ex = .invalidArgument what) := by
  cases hrefused with
  | provider _ h' q e =>
      left
      refine ⟨_, List.mem_cons_self, _, rfl, ?_⟩
      rintro rfl
      cases q
      obtain ⟨⟨⟩, _⟩ := hlist.fetched _ List.mem_cons_self
  | emptyList _ h' what hcat =>
      obtain ⟨⟨⟩, hne⟩ := hlist.fetched _ List.mem_cons_self
      exact absurd rfl hne
  | unknown _ _ what hcat hobtained hcode hunlisted =>
      right
      obtain rfl := hlist.eq_of_obtained hobtained
      refine ⟨hcat, Or.inl ⟨?_, what, rfl⟩⟩
      rintro ⟨⟨cur, hcur, hsource⟩, cur', hcur', htarget⟩
      rcases List.mem_pair.mp hcode with rfl | rfl
      · exact hunlisted cur hcur hsource
      · exact hunlisted cur' hcur' htarget
  | malformed _ _ hrange =>
      obtain ⟨range, hok⟩ := HistoryRequest.wellFormed_iff.mp hr
      rw [hok] at hrange
      cases hrange
  | dates _ _ what hcat hrange hknown hclock hout =>
      right
      obtain rfl := htoday _ hclock
      refine ⟨hcat, Or.inr ⟨⟨hlist.listed_of_known (hknown _ List.mem_cons_self),
        hlist.listed_of_known (hknown _ (List.mem_cons_of_mem _ List.mem_cons_self))⟩, ?_,
        what, rfl⟩⟩
      rw [HistoryRequest.inBounds_iff hr]
      exact fun hin ↦ hout.elim hin.1 hin.2

/-- The history cache is asked by the valid requests and by no other; the others call no
provider for a history, and what they are answered is the first of the three reasons. -/
theorem getHistory_admits_the_valid
    (hpath : Path (CurrencyServiceImpl.GetHistory r) h (.ret out)) (hlist : LookupsGive list h)
    (htoday : ∀ d, ⟨.systemClock, d⟩ ∈ h → d = today) :
    (Consulted .history h ↔ r.WellFormed ∧ r.Listed list ∧ r.InBounds today) ∧
    (¬ (r.WellFormed ∧ r.Listed list ∧ r.InBounds today) → ¬ Called .history h ∧
      (¬ r.WellFormed ∧ h = [] ∧ (∃ what, out = .error ⟨.invalidArgument, what⟩) ∨
        r.WellFormed ∧ ¬ r.Listed list ∧ (∃ what, out = .error ⟨.notFound, what⟩) ∨
        r.WellFormed ∧ r.Listed list ∧ ¬ r.InBounds today ∧
          ∃ what, out = .error ⟨.invalidArgument, what⟩)) := by
  have hvalid : Consulted .history h → r.WellFormed ∧ r.Listed list ∧ r.InBounds today :=
    valid_of_consulted hpath hlist htoday
  have hcalled : Called .history h → Consulted .history h := by
    rintro ⟨q, answer, hcall⟩
    exact consulted_of_about (path_serve hpath) hcall rfl
  suffices hdecided : Consulted .history h ∨
      (¬ r.WellFormed ∧ h = [] ∧ (∃ what, out = .error ⟨.invalidArgument, what⟩) ∨
        r.WellFormed ∧ ¬ r.Listed list ∧ (∃ what, out = .error ⟨.notFound, what⟩) ∨
        r.WellFormed ∧ r.Listed list ∧ ¬ r.InBounds today ∧
          ∃ what, out = .error ⟨.invalidArgument, what⟩) by
    refine ⟨⟨hvalid, fun hall ↦ ?_⟩, fun hnot ↦
      ⟨fun h ↦ hnot (hvalid (hcalled h)), hdecided.resolve_left fun h ↦ hnot (hvalid h)⟩⟩
    rcases hdecided with h | ⟨hbad, _⟩ | ⟨_, hbad, _⟩ | ⟨_, _, hbad, _⟩
    · exact h
    · exact absurd hall.1 hbad
    · exact absurd hall.2.1 hbad
    · exact absurd hall.2.2 hbad
  cases hrange : DateRange.construct r.startDate r.endDate with
  | error ex =>
      obtain ⟨hnil, hout⟩ := path_of_malformed hrange hpath
      obtain ⟨what, rfl⟩ := DateRange.construct_error hrange
      cases hout
      refine Or.inr (Or.inl ⟨fun hr ↦ ?_, hnil, what, rfl⟩)
      obtain ⟨range, hok⟩ := HistoryRequest.wellFormed_iff.mp hr
      rw [hrange] at hok
      cases hok
  | ok range =>
      have hr : r.WellFormed := HistoryRequest.wellFormed_iff.mpr ⟨range, hrange⟩
      obtain ⟨hanswers, hexplained⟩ := (holds_serve_explained (.getHistory r)).of_path hpath
      cases out with
      | ok response => exact Or.inl (consulted_of_ok hpath hanswers)
      | error status =>
          obtain ⟨ex, hrefused, rfl⟩ := hexplained
          rcases refused_cases hr hlist htoday hrefused with ⟨d, hd, c, hc, hne⟩ |
            ⟨_, ⟨hunlisted, what, rfl⟩ | ⟨hlisted, hbounds, what, rfl⟩⟩
          · exact Or.inl (consulted_of_other hpath hd hc hne)
          · exact Or.inr (Or.inr (Or.inl ⟨hr, hunlisted, what, rfl⟩))
          · exact Or.inr (Or.inr (Or.inr ⟨hr, hlisted, hbounds, what, rfl⟩))

end History

def listedJanuary : HistoryRequest := ⟨str "usd", str "EUR", str "2024-01-01", str "2024-01-31"⟩

/-- The request from empty caches: the list is fetched once and found once, then the
history is fetched. -/
def listedJanuaryActions : History ℚ :=
  (CurrencyServiceImpl.GetHistory listedJanuary).trace Server.answer
    (fun _ ↦ tickAt 0 (online 1 (str "2024-01-01"))) (0, Limits.builtIn.empty ℚ) []

theorem listedJanuaryActions_eq : listedJanuaryActions =
    [⟨.cachePut .history (str "USD|EUR|2024-01-01|2024-01-31")
        [⟨str "USD", str "EUR", 1, str "2024-01-01"⟩], ()⟩,
      ⟨.call (.history (str "USD") (str "EUR")
        ⟨str "2024-01-01", str "2024-01-31", by decide, by decide, by decide⟩),
        .ok [⟨str "USD", str "EUR", 1, str "2024-01-01"⟩]⟩,
      ⟨.cacheGet .history (str "USD|EUR|2024-01-01|2024-01-31"), none⟩,
      ⟨.systemClock, firstOfMarch⟩,
      ⟨.cacheGet .currencies kCacheKey, some euroAndDollar⟩,
      ⟨.cachePut .currencies kCacheKey euroAndDollar, ()⟩,
      ⟨.call .listCurrencies, .ok euroAndDollar⟩,
      ⟨.cacheGet .currencies kCacheKey, none⟩] := by
  with_unfolding_all rfl

theorem getHistory_admits_the_valid_january :
    Consulted .history listedJanuaryActions ∧ listedJanuary.WellFormed ∧
      listedJanuary.Listed euroAndDollar ∧ listedJanuary.InBounds firstOfMarch := by
  have hlist : LookupsGive euroAndDollar listedJanuaryActions := by
    rw [listedJanuaryActions_eq]
    constructor
    · intro key found hget
      simp at hget
      exact hget.2
    · intro answer hcall
      simp at hcall
      exact ⟨hcall, by decide⟩
  have htoday : ∀ d, ⟨.systemClock, d⟩ ∈ listedJanuaryActions → d = firstOfMarch := by
    rw [listedJanuaryActions_eq]
    intro d hclock
    simpa using hclock
  have hconsulted : Consulted .history listedJanuaryActions := by
    rw [listedJanuaryActions_eq]
    exact ⟨_, _, List.mem_cons_of_mem _ (List.mem_cons_of_mem _ List.mem_cons_self)⟩
  exact ⟨hconsulted,
    (getHistory_admits_the_valid (Path.start.trace (0, _)) hlist htoday).1.mp hconsulted⟩

end CurrencyConverter
