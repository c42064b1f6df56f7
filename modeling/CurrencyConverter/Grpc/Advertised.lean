import CurrencyConverter.Domain.IsoDate
import CurrencyConverter.Grpc.Provenance

/-!
# What the server advertises it accepts

A client learns the codes from `ListCurrencies` and the bounds from `GetConstraints`,
and both may be old when its request is checked.  The lists that are looked at later
still contain the codes, and the clock has only moved the last date on.
-/

namespace CurrencyConverter

open AtomicProgram Prog

variable {D : Type}

/-- Two codes of one answer to `ListCurrencies`, and the bounds of `GetConstraints`. -/
structure Told (log : Log D) (c₁ c₂ : Str) (bounds : ConstraintsResponse D) : Prop where
  distinct : c₁ ≠ c₂
  codes : ∃ i infos, .responded i (.ok (.listCurrencies infos)) ∈ log ∧
    (∃ info ∈ infos, info.code = c₁) ∧ ∃ info ∈ infos, info.code = c₂
  bounds : ∃ i, .responded i (.ok (.getConstraints bounds)) ∈ log

/-- Every list the provider returns has both codes, in upper case, and the system clock
does not go back. -/
structure Steady (log : Log D) (c₁ c₂ : Str) : Prop where
  listed : ∀ i w list, .acted i w (.call .listCurrencies) (.ok list) ∈ log →
    (∃ cur ∈ list, cur.code = c₁) ∧ ∃ cur ∈ list, cur.code = c₂
  upper : toUpper c₁ = c₁ ∧ toUpper c₂ = c₂
  clock : ∀ i w today l j w' earlier, .acted i w .systemClock today :: l <:+ log →
    .acted j w' .systemClock earlier ∈ l → earlier.numbers ≤ today.numbers

variable [Double D]

/-- A request for the two codes, in any letter case, within the bounds. -/
def Complies (c₁ c₂ : Str) (bounds : ConstraintsResponse D) : Request D → Prop
  | .convert r => (toUpper r.sourceCurrency = toUpper c₁ ∧ toUpper r.targetCurrency = toUpper c₂) ∧
      Double.isfinite r.amount = true ∧ ¬ r.amount < bounds.minAmount ∧
        ¬ bounds.maxAmount < r.amount
  | .getHistory r =>
      (toUpper r.sourceCurrency = toUpper c₁ ∧ toUpper r.targetCurrency = toUpper c₂) ∧
      isIsoDate r.startDate = true ∧ isIsoDate r.endDate = true ∧
        ¬ r.startDate < bounds.minDate ∧ ¬ r.endDate < r.startDate ∧ ¬ bounds.maxDate < r.endDate
  | _ => False

section Runs

variable {limits : Limits} {schedule : Schedule D} {log : Log D} {c₁ c₂ : Str}
  {bounds : ConstraintsResponse D} {req : Request D}

/-- The bounds come from one reading of the clock, before they are returned. -/
theorem clock_of_bounds {i : ℕ} {l : Log D}
    (hs : .responded i (.ok (.getConstraints bounds)) :: l <:+ (limits.run schedule).log) :
    ∃ w today, .acted i w .systemClock today ∈ l ∧
      bounds = ⟨ConstraintsService.kMinAmount, ConstraintsService.kMaxAmount, str "1999-01-04",
        today.format⟩ := by
  obtain ⟨req, _, _, today, hproject, hbounds⟩ :=
    (legal_log limits schedule).result holds_serve_explained hs
  have hmem : ⟨.systemClock, today⟩ ∈ project i l := by
    rw [hproject]
    exact List.mem_cons_self
  obtain ⟨w, hclock⟩ := mem_project.mp hmem
  exact ⟨w, today, hclock, hbounds⟩

omit [Double D] in
/-- The codes of a complying request are those it was told. -/
theorem Complies.codes [Double D] (hreq : Complies c₁ c₂ bounds req)
    (hsteady : Steady log c₁ c₂) : req.codes = [c₁, c₂] := by
  cases req with
  | listCurrencies => cases hreq
  | getConstraints => cases hreq
  | convert r => rw [Request.codes, hreq.1.1, hreq.1.2, hsteady.upper.1, hsteady.upper.2]
  | getHistory r => rw [Request.codes, hreq.1.1, hreq.1.2, hsteady.upper.1, hsteady.upper.2]

/-- A reading of the clock by the request comes after the one that gave the bounds. -/
theorem later_reading (hsteady : Steady (limits.run schedule).log c₁ c₂) {j : ℕ} {told : Log D}
    (hstart : .started j req :: told <:+ (limits.run schedule).log) {l : Log D}
    (hs : l <:+ (limits.run schedule).log) {i : ℕ} {w : Tick D} {first today : CalendarDate}
    (hfirst : .acted i w .systemClock first ∈ told) (htoday : ⟨.systemClock, today⟩ ∈ project j l) :
    first.numbers ≤ today.numbers := by
  obtain ⟨w', hmem⟩ := mem_project.mp htoday
  obtain ⟨earlier, hearlier⟩ := exists_suffix_of_mem hmem
  have hread := hearlier.trans hs
  obtain ⟨req', hreq', _⟩ := permitted hread
  have hbefore := (legal_log limits schedule).started_before hstart
    ((List.suffix_cons _ _).trans hread) hreq'
  exact hsteady.clock _ _ _ _ _ _ _ hread (hbefore.mem (List.mem_cons_of_mem _ hfirst))

/-- No complying request is refused by a check. -/
theorem Complies.not_refused (hsteady : Steady (limits.run schedule).log c₁ c₂) {j : ℕ}
    {told l : Log D} (hstart : .started j req :: told <:+ (limits.run schedule).log)
    (htold : Told told c₁ c₂ bounds) (hreq : Complies c₁ c₂ bounds req)
    (hs : l <:+ (limits.run schedule).log) {ex : Exception}
    (hrefused : Refused req (project j l) ex) (what : Str) :
    ex ≠ .invalidArgument what ∧ ex ≠ .currencyNotFound what := by
  obtain ⟨i, hresponse⟩ := htold.bounds
  obtain ⟨before, hbefore⟩ := exists_suffix_of_mem hresponse
  have hbefore' := hbefore.trans ((List.suffix_cons _ _).trans hstart)
  obtain ⟨w, first, hfirst, rfl⟩ := clock_of_bounds hbefore'
  have hfirst' : .acted i w .systemClock first ∈ told :=
    hbefore.mem (List.mem_cons_of_mem _ hfirst)
  have hread : ∀ today, ⟨.systemClock, today⟩ ∈ project j l → first.numbers ≤ today.numbers :=
    fun today ↦ later_reading hsteady hstart hs hfirst'
  have hlisted : ∀ list, Obtained (project j l) .listCurrencies list →
      ∀ code ∈ req.codes, ∃ cur ∈ list, cur.code = code := by
    intro list hobtained code hcode
    obtain ⟨i', w', hcall⟩ := exists_call_of_seen hs hobtained.seen
    obtain ⟨h₁, h₂⟩ := hsteady.listed i' w' list hcall
    rw [hreq.codes hsteady] at hcode
    rcases List.mem_pair.mp hcode with rfl | rfl
    · exact h₁
    · exact h₂
  generalize project j l = h at hrefused hread hlisted
  cases hrefused with
  | provider _ _ _ e =>
      cases e with
      | unavailable => exact ⟨Exception.noConfusion, Exception.noConfusion⟩
      | unexpectedResponse => exact ⟨Exception.noConfusion, Exception.noConfusion⟩
      | other => exact ⟨Exception.noConfusion, Exception.noConfusion⟩
  | emptyList => exact ⟨Exception.noConfusion, Exception.noConfusion⟩
  | unknown _ _ _ _ hobtained hcode hunlisted =>
      obtain ⟨cur, hcur, heq⟩ := hlisted _ hobtained _ hcode
      exact absurd heq (hunlisted cur hcur)
  | equalCodes r _ _ _ _ heq =>
      rw [hreq.1.1, hreq.1.2, hsteady.upper.1, hsteady.upper.2] at heq
      exact absurd heq htold.distinct
  | amount r _ _ _ _ _ hout => exact absurd hreq.2 hout
  | malformed r _ hrange =>
      obtain ⟨_, hstart, hend, _, hord, _⟩ := hreq
      obtain ⟨range, hok⟩ := DateRange.construct_eq_ok_iff.mpr
        ⟨hstart, hend, (isoDate_not_lt_iff hend hstart).mp hord⟩
      rw [hok] at hrange
      cases hrange
  | dates r _ _ _ _ _ hclock hout =>
      obtain ⟨_, _, hend, hmin, _, hmax⟩ := hreq
      rcases hout with hout | hout
      · exact absurd hout hmin
      · have hlater := hread _ hclock
        rw [isoDate_lt_iff (CalendarDate.isIsoDate_format _) hend, CalendarDate.dateNumbers_format]
          at hout
        rw [isoDate_not_lt_iff first.isIsoDate_format hend, first.dateNumbers_format] at hmax
        exact absurd (hmax.trans hlater) (not_le.mpr hout)

/-- A request for two codes the client was told, within the bounds it was told, is never
answered `INVALID_ARGUMENT` or `NOT_FOUND`, whatever happened since. -/
theorem advertised_is_accepted (hsteady : Steady (limits.run schedule).log c₁ c₂) {j : ℕ}
    {told : Log D} (hstart : .started j req :: told <:+ (limits.run schedule).log)
    (htold : Told told c₁ c₂ bounds) (hreq : Complies c₁ c₂ bounds req) {out : Outcome D}
    (hout : .responded j out ∈ (limits.run schedule).log) (what : Str) :
    out ≠ .error ⟨.invalidArgument, what⟩ ∧ out ≠ .error ⟨.notFound, what⟩ := by
  obtain ⟨l, hl⟩ := exists_suffix_of_mem hout
  have hs := (List.suffix_cons _ _).trans hl
  have hlegal := legal_log limits schedule
  obtain ⟨req', hreq', _, hexplained⟩ := hlegal.result holds_serve_explained hl
  have hstarted : requestOf j (.started j req :: told) = some req := if_pos rfl
  have hreq'' := hlegal.requestOf_of_suffix hs hreq'
  obtain rfl : req = req' :=
    Option.some.inj ((hlegal.requestOf_of_suffix hstart hstarted).symm.trans hreq'')
  cases out with
  | ok response => exact ⟨nofun, nofun⟩
  | error status =>
      obtain ⟨ex, hrefused, rfl⟩ := hexplained
      obtain ⟨hvalid, hfound⟩ := hreq.not_refused hsteady hstart htold hs hrefused what
      constructor
      · intro h
        apply hvalid
        cases ex with
        | invalidArgument => simpa [CurrencyServiceImpl.toStatus] using h
        | _ => simp [CurrencyServiceImpl.toStatus] at h
      · intro h
        apply hfound
        cases ex with
        | currencyNotFound => simpa [CurrencyServiceImpl.toStatus] using h
        | _ => simp [CurrencyServiceImpl.toStatus] at h

end Runs

def lookups : Schedule ℚ :=
  inTurn 2 (tickAt 0 (online 1 (str "2024-03-01"))) .getConstraints
    4 (tickAt 0 (online 1 (str "2024-03-01"))) .listCurrencies

/-- When 10 dollars are to be converted, the list of `lookups` has expired. -/
def nextDay : Schedule ℚ :=
  List.replicate 9 (.act 2 (tickAt 2000 (online 1 (str "2024-03-01")))) ++
    .start usdToEur :: lookups

theorem tick_of_nextDay {i : ℕ} {w : Tick ℚ} (h : .act i w ∈ nextDay) :
    w.today = firstOfMarch ∧ w.upstream .currencies .listCurrencies = .ok euroAndDollar := by
  rcases List.mem_append.mp h with h | h
  · cases (List.mem_replicate.mp h).2
    exact ⟨rfl, rfl⟩
  · rcases List.mem_cons.mp h with h | h
    · cases h
    · rcases tick_of_inTurn h with rfl | rfl
      · exact ⟨rfl, rfl⟩
      · exact ⟨rfl, rfl⟩

theorem steady_nextDay : Steady (Limits.builtIn.run nextDay).log (str "USD") (str "EUR") := by
  have hreading : ∀ {i w today}, .acted i w .systemClock today ∈ (Limits.builtIn.run nextDay).log →
      today = firstOfMarch := by
    intro i w today hmem
    obtain ⟨htoday, hact⟩ := eq_today_of_clock hmem
    exact htoday.trans (tick_of_nextDay hact).1
  constructor
  · intro i w list hcall
    obtain ⟨hlist, hact⟩ := eq_upstream_of_call hcall
    rw [(tick_of_nextDay hact).2] at hlist
    cases hlist
    exact ⟨⟨_, List.mem_cons_of_mem _ List.mem_cons_self, rfl⟩, ⟨_, List.mem_cons_self, rfl⟩⟩
  · decide
  · intro i w today l j w' earlier hs hmem
    rw [hreading (hs.mem List.mem_cons_self),
      hreading (((List.suffix_cons _ _).trans hs).mem hmem)]

def marchBounds : ConstraintsResponse ℚ :=
  ⟨ConstraintsService.kMinAmount, ConstraintsService.kMaxAmount, str "1999-01-04",
    firstOfMarch.format⟩

theorem told_lookups :
    Told (Limits.builtIn.run lookups).log (str "USD") (str "EUR") marchBounds := by
  have hlog : ∃ e₁ e₂ e₃ e₄ e₅ e₆, (Limits.builtIn.run lookups).log =
      [.responded 1 (.ok (.getConstraints marchBounds)), e₁, e₂,
        .responded 0 (.ok (.listCurrencies [⟨str "EUR", str "Euro"⟩,
          ⟨str "USD", str "United States Dollar"⟩])), e₃, e₄, e₅, e₆] :=
    ⟨_, _, _, _, _, _, by with_unfolding_all rfl⟩
  obtain ⟨e₁, e₂, e₃, e₄, e₅, e₆, hlog⟩ := hlog
  rw [hlog]
  have hinfos : .responded 0 (.ok (.listCurrencies [⟨str "EUR", str "Euro"⟩,
      ⟨str "USD", str "United States Dollar"⟩])) ∈ [.responded 1 (.ok (.getConstraints marchBounds)),
        e₁, e₂, .responded 0 (.ok (.listCurrencies [⟨str "EUR", str "Euro"⟩,
          ⟨str "USD", str "United States Dollar"⟩])), e₃, e₄, e₅, e₆] :=
    List.mem_cons_of_mem _ (List.mem_cons_of_mem _ (List.mem_cons_of_mem _ List.mem_cons_self))
  exact ⟨by decide, ⟨0, _, hinfos, ⟨_, List.mem_cons_of_mem _ List.mem_cons_self, rfl⟩,
    ⟨_, List.mem_cons_self, rfl⟩⟩, ⟨1, List.mem_cons_self⟩⟩

theorem advertised_is_accepted_nextDay :
    ∃ out, .responded 2 out ∈ (Limits.builtIn.run nextDay).log ∧ ∀ what,
      out ≠ .error ⟨.invalidArgument, what⟩ ∧ out ≠ .error ⟨.notFound, what⟩ := by
  have hthreads : (Limits.builtIn.run lookups).threads.length = 2 := by with_unfolding_all rfl
  have hstart : .started 2 usdToEur :: (Limits.builtIn.run lookups).log <:+
      (Limits.builtIn.run nextDay).log := by
    rw [← hthreads]
    exact Machine.log_suffix_run (Server.machine ℚ) (Limits.builtIn.empty ℚ) _
      (.start usdToEur :: lookups)
  have hreq : Complies (str "USD") (str "EUR") marchBounds usdToEur :=
    ⟨⟨by decide, by decide⟩, rfl, by decide +kernel, by decide +kernel⟩
  have hhead : (Limits.builtIn.run nextDay).log.head? =
      some (.responded 2 (.ok (.convert ⟨10, 10 * 1, 1, str "2024-03-01"⟩))) := by
    with_unfolding_all rfl
  have hout := List.mem_of_head? hhead
  exact ⟨_, hout, advertised_is_accepted steady_nextDay hstart told_lookups hreq hout⟩

end CurrencyConverter
