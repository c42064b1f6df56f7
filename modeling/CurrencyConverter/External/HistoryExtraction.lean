import CurrencyConverter.External.FrankfurterClient
import Mathlib.Data.List.Nodup

/-!
# What the client extracts from a history payload

The loop over the days skips what is out of the range, throws on what it cannot read
and pushes the rest.
-/

namespace CurrencyConverter

open Collecting

variable {D : Type}

/-- `date` is in the closed interval of `range`. -/
def DateRange.Contains (range : DateRange) (date : Str) : Prop :=
  ¬ date < range.startDate ∧ ¬ range.endDate < date

instance (range : DateRange) (date : Str) : Decidable (range.Contains date) :=
  inferInstanceAs (Decidable (_ ∧ _))

/-- The entries of `rates` that the loop looks into. -/
def DateRange.entries (range : DateRange) (rates : Members) : Members :=
  rates.filter fun entry ↦ range.Contains entry.1

theorem DateRange.mem_entries {range : DateRange} {rates : Members} {entry : Str × Json} :
    entry ∈ range.entries rates ↔ entry ∈ rates ∧ range.Contains entry.1 := by
  rw [DateRange.entries, List.mem_filter, decide_eq_true_eq]

namespace FrankfurterClient

/-- A `200` body whose `rates` is an object, which yields each of its keys once. -/
structure RatesPayload (client : FrankfurterClient D) (path : Str) (rates : Members) : Prop where
  parsed : ∃ (body : Str) (object : Members), client.get path = .ok body ∧
    client.json.parse body = .ok (.object object) ∧
    object.getObject (str "rates") = some rates
  keys_once : (rates.map Prod.fst).Nodup

/-- The day's entry is no object, or its target value is no number. -/
def Malformed (json : PocoJson D) (target : Str) (entry : Str × Json) : Prop :=
  ∀ dayRates, entry.2 = .object dayRates →
    ∃ value ex, dayRates.lookup target = some value ∧ json.convertDouble value = .error ex

/-- `point` is what the day's entry quotes. -/
def Quotes (json : PocoJson D) (source target : Str) (entry : Str × Json)
    (point : ExchangeRate D) : Prop :=
  ∃ dayRates value rate, entry.2 = .object dayRates ∧ dayRates.lookup target = some value ∧
    json.convertDouble value = .ok rate ∧ point = ⟨source, target, rate, entry.1⟩

/-- One point for each day of the range that has the target, and no others. -/
structure Exact (json : PocoJson D) (source target : Str) (range : DateRange) (rates : Members)
    (points : List (ExchangeRate D)) : Prop where
  increasing : points.Pairwise fun point point' ↦ point.date < point'.date
  in_range : ∀ point ∈ points, range.Contains point.date
  one_each : ∀ entry ∈ rates, range.Contains entry.1 →
    ∀ dayRates value, entry.2 = .object dayRates → dayRates.lookup target = some value →
      ∃ point ∈ points, Quotes json source target entry point ∧
        ∀ point' ∈ points, point'.date = entry.1 → point' = point
  no_other : ∀ point ∈ points, ∃ entry ∈ rates, Quotes json source target entry point

variable {client : FrankfurterClient D} {source target : Str} {range : DateRange}

/-! ## One turn of the loop -/

theorem pointOf_of_out {entry : Str × Json} (h : ¬ range.Contains entry.1) :
    client.pointOf source target range entry = .ok none := by
  have hout : entry.1 < range.startDate ∨ range.endDate < entry.1 := by
    rw [DateRange.Contains] at h
    tauto
  rw [pointOf, if_pos hout]
  rfl

theorem pointOf_cases (client : FrankfurterClient D) (source target : Str) {entry : Str × Json}
    (h : range.Contains entry.1) :
    (∃ ex, client.pointOf source target range entry = .error ex ∧
      Malformed client.json target entry) ∨
    (∃ dayRates, client.pointOf source target range entry = .ok none ∧
      entry.2 = .object dayRates ∧ dayRates.lookup target = none) ∨
    ∃ point, client.pointOf source target range entry = .ok (some point) ∧
      Quotes client.json source target entry point := by
  have hin : ¬ (entry.1 < range.startDate ∨ range.endDate < entry.1) := by
    rw [DateRange.Contains] at h
    tauto
  obtain ⟨date, value⟩ := entry
  rw [pointOf, if_neg hin]
  cases value with
  | object dayRates =>
      cases hlookup : dayRates.lookup target with
      | none =>
          apply Or.inr
          apply Or.inl
          refine ⟨dayRates, ?_, rfl, hlookup⟩
          simp [PocoJson.extractObject, hlookup, bind, Except.bind, pure, Except.pure]
      | some value =>
          cases hconvert : client.json.convertDouble value with
          | error ex =>
              refine .inl ⟨ex, ?_, ?_⟩
              · simp [PocoJson.extractObject, hlookup, hconvert, bind, Except.bind]
              · rintro _ ⟨rfl⟩
                exact ⟨value, ex, hlookup, hconvert⟩
          | ok rate =>
              apply Or.inr
              apply Or.inr
              refine ⟨_, ?_, dayRates, value, rate, rfl, hlookup, hconvert, rfl⟩
              simp [PocoJson.extractObject, hlookup, hconvert, bind, Except.bind, pure, Except.pure]
  | _ => exact .inl ⟨_, rfl, fun dayRates h ↦ by cases h⟩

theorem Quotes.unique {json : PocoJson D} {entry : Str × Json} {point point' : ExchangeRate D}
    (h : Quotes json source target entry point) (h' : Quotes json source target entry point') :
    point = point' := by
  obtain ⟨dayRates, value, rate, hobject, hlookup, hconvert, rfl⟩ := h
  obtain ⟨dayRates', value', rate', hobject', hlookup', hconvert', rfl⟩ := h'
  cases hobject.symm.trans hobject'
  cases hlookup.symm.trans hlookup'
  cases hconvert.symm.trans hconvert'
  rfl

theorem Quotes.not_malformed {json : PocoJson D} {entry : Str × Json} {point : ExchangeRate D}
    (h : Quotes json source target entry point) : ¬ Malformed json target entry := by
  intro hbad
  obtain ⟨dayRates, value, rate, hobject, hlookup, hconvert, -⟩ := h
  obtain ⟨value', ex, hlookup', hconvert'⟩ := hbad dayRates hobject
  cases hlookup.symm.trans hlookup'
  cases hconvert.symm.trans hconvert'

theorem Quotes.date {json : PocoJson D} {entry : Str × Json} {point : ExchangeRate D}
    (h : Quotes json source target entry point) : point.date = entry.1 := by
  obtain ⟨dayRates, value, rate, -, -, -, rfl⟩ := h
  rfl

theorem pointOf_error_iff {entry : Str × Json} :
    (∃ ex, client.pointOf source target range entry = .error ex) ↔
      range.Contains entry.1 ∧ Malformed client.json target entry := by
  constructor
  · rintro ⟨ex, hex⟩
    by_cases hin : range.Contains entry.1
    · rcases pointOf_cases client source target hin with
        ⟨-, -, hbad⟩ | ⟨dayRates, hskip, -⟩ | ⟨point, hpoint, -⟩
      · exact ⟨hin, hbad⟩
      · cases hskip.symm.trans hex
      · cases hpoint.symm.trans hex
    · cases (pointOf_of_out hin).symm.trans hex
  · rintro ⟨hin, hbad⟩
    rcases pointOf_cases client source target hin with
      ⟨ex, hex, -⟩ | ⟨dayRates, -, hobject, hnone⟩ | ⟨point, -, hquotes⟩
    · exact ⟨ex, hex⟩
    · obtain ⟨value, ex, hsome, -⟩ := hbad dayRates hobject
      cases hnone.symm.trans hsome
    · exact absurd hbad hquotes.not_malformed

theorem pointOf_some_iff {entry : Str × Json} {point : ExchangeRate D} :
    client.pointOf source target range entry = .ok (some point) ↔
      range.Contains entry.1 ∧ Quotes client.json source target entry point := by
  constructor
  · intro h
    by_cases hin : range.Contains entry.1
    · rcases pointOf_cases client source target hin with
        ⟨ex, hex, -⟩ | ⟨dayRates, hskip, -⟩ | ⟨point', hpoint, hquotes⟩
      · cases hex.symm.trans h
      · cases hskip.symm.trans h
      · cases hpoint.symm.trans h
        exact ⟨hin, hquotes⟩
    · cases (pointOf_of_out hin).symm.trans h
  · rintro ⟨hin, hquotes⟩
    rcases pointOf_cases client source target hin with
      ⟨-, -, hbad⟩ | ⟨dayRates, -, hobject, hnone⟩ | ⟨point', hpoint, hquotes'⟩
    · exact absurd hbad hquotes.not_malformed
    · obtain ⟨dayRates', value, rate, hobject', hsome, -⟩ := hquotes
      cases hobject.symm.trans hobject'
      cases hnone.symm.trans hsome
    · rw [hpoint, hquotes.unique hquotes']

/-- The turn reads nothing of the client but its JSON. -/
theorem pointOf_congr {client' : FrankfurterClient D} (h : client'.json = client.json)
    (source target : Str) (range : DateRange) :
    client'.pointOf source target range = client.pointOf source target range := by
  funext entry
  rw [pointOf, pointOf, h]

/-! ## The whole loop -/

section Loop

variable {rates : Members} {points : List (ExchangeRate D)}

theorem collect_entries (rates : Members) :
    collect (client.pointOf source target range) (range.entries rates) =
      collect (client.pointOf source target range) rates := by
  apply collect_filter
  intro entry hout
  exact pointOf_of_out (decide_eq_false_iff_not.mp hout)

theorem nodup_dates (hkeys : (rates.map Prod.fst).Nodup)
    (h : collect (client.pointOf source target range) rates = .ok points) :
    (points.map ExchangeRate.date).Nodup :=
  nodup_keys_of_collect (fun _ _ hread ↦ (pointOf_some_iff.mp hread).2.date) hkeys h

theorem exact_of_collect (hkeys : (rates.map Prod.fst).Nodup)
    (h : collect (client.pointOf source target range) rates = .ok points) :
    Exact client.json source target range rates (sortBy ExchangeRate.date points) := by
  have hmem : ∀ point, point ∈ sortBy ExchangeRate.date points ↔ ∃ entry ∈ rates,
      range.Contains entry.1 ∧ Quotes client.json source target entry point := by
    intro point
    rw [mem_sortBy, mem_collect h]
    simp only [pointOf_some_iff]
  constructor
  · exact pairwise_sortBy (nodup_dates hkeys h)
  · intro point hpoint
    obtain ⟨entry, -, hin, hquotes⟩ := (hmem point).mp hpoint
    rwa [hquotes.date]
  · intro entry hentry hin dayRates value hobject hlookup
    obtain ⟨o, ho⟩ := (collect_ok_iff.mp h).1 entry hentry
    cases o with
    | none =>
        -- the turn skips only a day without the target
        rcases pointOf_cases client source target hin with
          ⟨ex, hex, -⟩ | ⟨dayRates', -, hobject', hnone⟩ | ⟨point, hpoint, -⟩
        · cases hex.symm.trans ho
        · cases hobject.symm.trans hobject'
          cases hnone.symm.trans hlookup
        · cases hpoint.symm.trans ho
    | some point =>
        have hquotes := (pointOf_some_iff.mp ho).2
        refine ⟨point, (hmem point).mpr ⟨entry, hentry, hin, hquotes⟩, hquotes, ?_⟩
        intro point' hpoint' hdate
        obtain ⟨entry', hentry', -, hquotes'⟩ := (hmem point').mp hpoint'
        have hkey : entry'.1 = entry.1 := hquotes'.date.symm.trans hdate
        cases List.inj_on_of_nodup_map hkeys hentry' hentry hkey
        exact hquotes'.unique hquotes
  · intro point hpoint
    obtain ⟨entry, hentry, -, hquotes⟩ := (hmem point).mp hpoint
    exact ⟨entry, hentry, hquotes⟩

end Loop

/-! ## The call -/

/-- What the call makes of the loop: its points sorted, its exception translated. -/
def finish : Except PocoException (List (ExchangeRate D)) → Except Thrown (List (ExchangeRate D))
  | .ok points => .ok (sortBy ExchangeRate.date points)
  | .error ex => .error (.domain (.externalApiUnexpectedResponse
      (str "unexpected /v1/\x7bstart\x7d..\x7bend\x7d payload: " ++ ex.displayText)))

theorem history_of_payload {rates : Members}
    (h : client.RatesPayload (historyPath source target range) rates) :
    client.history source target range =
      finish (collect (client.pointOf source target range) rates) := by
  obtain ⟨body, object, hget, hparse, hrates⟩ := h.parsed
  have hread : client.history source target range =
      client.readHistory source target range body := by
    rw [history, hget]
    rfl
  have hobject : client.parseObject body = .ok object := by
    rw [parseObject, hparse]
    rfl
  rw [hread, readHistory, hobject]
  simp only [hrates, bind, Except.bind]
  cases collect (client.pointOf source target range) rates with
  | ok points => rfl
  | error ex => rfl

theorem history_error {rates : Members}
    (h : client.RatesPayload (historyPath source target range) rates) {thrown : Thrown}
    (hthrown : client.history source target range = .error thrown) :
    ∃ what, thrown = .domain (.externalApiUnexpectedResponse what) := by
  rw [history_of_payload h] at hthrown
  cases hcollect : collect (client.pointOf source target range) rates with
  | ok points =>
      rw [hcollect] at hthrown
      cases hthrown
  | error ex =>
      rw [hcollect] at hthrown
      cases hthrown
      exact ⟨_, rfl⟩

theorem history_error_iff {rates : Members}
    (h : client.RatesPayload (historyPath source target range) rates) :
    (∃ thrown, client.history source target range = .error thrown) ↔
      ∃ entry ∈ rates, range.Contains entry.1 ∧ Malformed client.json target entry := by
  have hloop : (∃ ex, collect (client.pointOf source target range) rates = .error ex) ↔
      ∃ entry ∈ rates, range.Contains entry.1 ∧ Malformed client.json target entry := by
    rw [collect_error_iff]
    simp only [pointOf_error_iff]
  rw [← hloop, history_of_payload h]
  cases collect (client.pointOf source target range) rates with
  | ok points => simp [finish]
  | error ex => simp [finish]

theorem history_ok_iff {rates : Members}
    (h : client.RatesPayload (historyPath source target range) rates)
    {points : List (ExchangeRate D)} :
    client.history source target range = .ok points ↔
      ∃ pushed, collect (client.pointOf source target range) rates = .ok pushed ∧
        sortBy ExchangeRate.date pushed = points := by
  rw [history_of_payload h]
  cases collect (client.pointOf source target range) rates with
  | ok pushed => simp [finish]
  | error ex => simp [finish]

/-! ## What it depends on -/

/-- POCO keeps the members of an object in a map, and iterates it in the order of the
keys. -/
def InKeyOrder (rates : Members) : Prop :=
  rates.Pairwise fun entry entry' ↦ entry.1 < entry'.1

section Payloads

variable {rates rates' : Members} (hkeys : (rates.map Prod.fst).Nodup)
  (hkeys' : (rates'.map Prod.fst).Nodup)
  (hagree : ∀ entry, range.Contains entry.1 → (entry ∈ rates' ↔ entry ∈ rates))

include hkeys hkeys' hagree

theorem entries_perm : (range.entries rates').Perm (range.entries rates) := by
  have hnodup : (range.entries rates).Nodup := (List.Nodup.of_map _ hkeys).filter _
  have hnodup' : (range.entries rates').Nodup := (List.Nodup.of_map _ hkeys').filter _
  rw [List.perm_ext_iff_of_nodup hnodup' hnodup]
  intro entry
  rw [DateRange.mem_entries, DateRange.mem_entries]
  exact and_congr_left (hagree entry)

theorem entries_eq_of_inKeyOrder (horder : InKeyOrder rates) (horder' : InKeyOrder rates') :
    range.entries rates' = range.entries rates := by
  have hasymm : ∀ entry entry', entry ∈ range.entries rates' → entry' ∈ range.entries rates →
      entry.1 < entry'.1 → entry'.1 < entry.1 → entry = entry' :=
    fun _ _ _ _ hlt hlt' ↦ absurd (Std.lt_trans hlt hlt') Std.lt_irrefl
  exact (entries_perm hkeys hkeys' hagree).eq_of_pairwise hasymm (horder'.filter _)
    (horder.filter _)

theorem collect_ok_of_agree {pushed : List (ExchangeRate D)}
    (h : collect (client.pointOf source target range) rates = .ok pushed) :
    ∃ pushed', collect (client.pointOf source target range) rates' = .ok pushed' ∧
      sortBy ExchangeRate.date pushed' = sortBy ExchangeRate.date pushed := by
  have hperm := entries_perm hkeys hkeys' hagree
  rcases collect_perm (client.pointOf source target range) hperm with
    ⟨pushed', values, hpushed', hvalues, hvalues_perm⟩ | ⟨-, ex, hex⟩
  · rw [collect_entries] at hpushed' hvalues
    cases hvalues.symm.trans h
    exact ⟨pushed', hpushed', sortBy_eq_of_perm (nodup_dates hkeys' hpushed') hvalues_perm⟩
  · rw [collect_entries, h] at hex
    cases hex

end Payloads

/-- `history` gives one point for each day of the range that has the target, sorted by
date, or throws exactly on a malformed entry of the range.  Its result is that of any
payload with the same entries in the range; the text of what it throws depends at most
on the order of these. -/
theorem history_is_exact {rates : Members}
    (h : client.RatesPayload (historyPath source target range) rates) :
    (∀ thrown, client.history source target range = .error thrown →
      ∃ what, thrown = .domain (.externalApiUnexpectedResponse what)) ∧
    ((∃ thrown, client.history source target range = .error thrown) ↔
      ∃ entry ∈ rates, range.Contains entry.1 ∧ Malformed client.json target entry) ∧
    (∀ points, client.history source target range = .ok points →
      Exact client.json source target range rates points) ∧
    ∀ (client' : FrankfurterClient D) (rates' : Members), client'.json = client.json →
      client'.RatesPayload (historyPath source target range) rates' →
      (∀ entry, range.Contains entry.1 → (entry ∈ rates' ↔ entry ∈ rates)) →
      (∀ points, client'.history source target range = .ok points ↔
        client.history source target range = .ok points) ∧
      (range.entries rates' = range.entries rates ∨ InKeyOrder rates ∧ InKeyOrder rates' →
        client'.history source target range = client.history source target range) := by
  refine ⟨fun thrown ↦ history_error h, history_error_iff h, ?_, ?_⟩
  · intro points hpoints
    obtain ⟨pushed, hpushed, rfl⟩ := (history_ok_iff h).mp hpoints
    exact exact_of_collect h.keys_once hpushed
  · intro client' rates' hjson h' hagree
    have hread := pointOf_congr hjson source target range
    constructor
    · intro points
      rw [history_ok_iff h, history_ok_iff h', hread]
      constructor
      · rintro ⟨pushed', hpushed', rfl⟩
        exact collect_ok_of_agree h'.keys_once h.keys_once
          (fun entry hin ↦ (hagree entry hin).symm) hpushed'
      · rintro ⟨pushed, hpushed, rfl⟩
        exact collect_ok_of_agree h.keys_once h'.keys_once hagree hpushed
    · intro horder
      have hentries : range.entries rates' = range.entries rates := by
        rcases horder with heq | ⟨horder, horder'⟩
        · exact heq
        · exact entries_eq_of_inKeyOrder h.keys_once h'.keys_once hagree horder horder'
      rw [history_of_payload h, history_of_payload h', hread, ← collect_entries rates',
        hentries, collect_entries]

/-- The day before the range and the malformed one after it are left out. -/
theorem history_is_exact_january :
    let range : DateRange := ⟨str "2024-01-01", str "2024-01-31", by decide, by decide, by decide⟩
    let rates : Members := [(str "2023-12-29", .object [(str "USD", .number (str "1"))]),
      (str "2024-01-02", .object [(str "USD", .number (str "2"))]),
      (str "2024-01-03", .object []), (str "2024-02-01", .array [])]
    let json := pocoJson (.object [(str "rates", .object rates)])
    Exact json (str "EUR") (str "USD") range rates
      [⟨str "EUR", str "USD", 2, str "2024-01-02"⟩] := by
  intro range rates json
  let body := str ("\x7b\"rates\":\x7b\"2023-12-29\":\x7b\"USD\":1\x7d," ++
    "\"2024-01-02\":\x7b\"USD\":2\x7d,\"2024-01-03\":\x7b\x7d,\"2024-02-01\":[]\x7d\x7d")
  let client : FrankfurterClient ℚ := ⟨siteUrl, site body, json⟩
  have hpayload : client.RatesPayload (historyPath (str "EUR") (str "USD") range) rates :=
    ⟨⟨body, _, rfl, rfl, rfl⟩, by decide⟩
  have hhistory : client.history (str "EUR") (str "USD") range =
      .ok [⟨str "EUR", str "USD", 2, str "2024-01-02"⟩] := by
    rw [history_ok_iff hpayload]
    exact ⟨[⟨str "EUR", str "USD", (2 : ℕ), str "2024-01-02"⟩], rfl, by simp [sortBy]⟩
  exact (history_is_exact hpayload).2.2.1 _ hhistory

end FrankfurterClient

end CurrencyConverter
