import CurrencyConverter.Frontend.Conversion
import CurrencyConverter.Grpc.HistoryAdmission

/-!
# The dates of the client and of the server

The client compares days by their numbers, the server the strings that the client
writes for them.
-/

namespace CurrencyConverter

/-! ## What the client writes -/

theorem digitChar_byte {n : ℕ} (h : n < 10) : UInt8.ofNat (Nat.digitChar n).toNat = digit n := by
  rw [Nat.toNat_digitChar_of_lt_ten h, digit, Nat.mod_eq_of_lt h]

/-- The last digit comes off the end. -/
theorem str_toString (n : ℕ) :
    str (toString n) = (if n < 10 then [] else str (toString (n / 10))) ++ [digit n] := by
  have hstr : ∀ m : ℕ, str (toString m) =
      (Nat.toDigits 10 m).map fun c ↦ UInt8.ofNat c.toNat := by
    intro m
    rw [str, Nat.toString_eq_repr, Nat.toList_repr]
  have hlast : digit (n % 10) = digit n := by rw [digit, digit, Nat.mod_mod]
  rw [hstr, hstr, Nat.toDigits_eq_if (by decide)]
  split
  · next h => rw [List.map_singleton, digitChar_byte h, List.nil_append]
  · rw [List.map_append, List.map_singleton, digitChar_byte (Nat.mod_lt n (by decide)), hlast]

theorem str_toString_year {year : ℕ} (hlow : 1000 ≤ year) (hhigh : year < 10000) :
    str (toString year) =
      [digit (year / 1000), digit (year / 100), digit (year / 10), digit year] := by
  have h1 : ¬ year < 10 := by omega
  have h2 : ¬ year / 10 < 10 := by omega
  have h3 : ¬ year / 10 / 10 < 10 := by omega
  have h4 : year / 10 / 10 / 10 < 10 := by omega
  rw [str_toString, if_neg h1, str_toString, if_neg h2, str_toString, if_neg h3, str_toString,
    if_pos h4]
  simp only [Nat.div_div_eq_div_mul, List.nil_append, List.cons_append]

theorem leftpad_toString {n : ℕ} (h : n < 100) :
    (str (toString n)).leftpad 2 48 = [digit (n / 10), digit n] := by
  by_cases hn : n < 10
  · have hzero : n / 10 = 0 := Nat.div_eq_of_lt hn
    rw [str_toString, if_pos hn, hzero]
    rfl
  · have hten : n / 10 < 10 := by omega
    rw [str_toString, if_neg hn, str_toString, if_pos hten]
    rfl

theorem sep_ne_digit (n : ℕ) : 45 ≠ digit n := by
  intro h
  have hbyte := congrArg UInt8.toNat h
  rw [digit_toNat] at hbyte
  simp only [UInt8.reduceToNat] at hbyte
  omega

theorem daysIn_le (year month : ℕ) : daysIn year month ≤ 31 := by
  unfold daysIn
  split
  · split <;> decide
  all_goals decide

namespace LocalDay

abbrev numbers (d : LocalDay) : DateNumbers := ymd d.year d.month d.day

/-- The years that are written with four digits and without a sign. -/
def FourDigits (d : LocalDay) : Prop := 1000 ≤ d.year ∧ d.year < 10000

theorem toDateInput_day {d : LocalDay} (h : d.FourDigits) :
    toDateInput (.day d) = isoDate d.year d.month d.day := by
  have hmonth : d.month < 100 := by have := d.month_mem; omega
  have hday : d.day < 100 := by
    have := d.day_mem
    have := daysIn_le d.year d.month
    omega
  rw [toDateInput, str_toString_year h.1 h.2, leftpad_toString hmonth, leftpad_toString hday]
  rfl

theorem before_iff {a b : LocalDay} : a.before b = true ↔ a.numbers < b.numbers := by
  rw [numbers, numbers, ymd_lt_iff]
  simp [before]

/-- The written dates are ordered as the days. -/
theorem toDateInput_lt_iff {a b : LocalDay} (ha : a.FourDigits) (hb : b.FourDigits) :
    toDateInput (.day a) < toDateInput (.day b) ↔ a.before b = true := by
  have hnumbers : ∀ {d : LocalDay}, d.FourDigits →
      dateNumbers (isoDate d.year d.month d.day) = d.numbers := by
    intro d hd
    have := d.month_mem
    have := d.day_mem
    have := daysIn_le d.year d.month
    exact dateNumbers_isoDate hd.2 (by omega) (by omega)
  rw [toDateInput_day ha, toDateInput_day hb,
    isoDate_lt_iff (isIsoDate_isoDate _ _ _) (isIsoDate_isoDate _ _ _), hnumbers ha, hnumbers hb,
    before_iff]

/-! ## What it reads -/

theorem tomorrow_iterate_first {year month : ℕ} (hmonth : 1 ≤ month ∧ month ≤ 12) {k : ℕ}
    (hk : k < daysIn year month) :
    tomorrow^[k] (first year month hmonth) = ⟨year, month, k + 1, hmonth, by omega, hk⟩ := by
  induction k with
  | zero => rfl
  | succ k ih =>
      rw [Function.iterate_succ_apply', ih (by omega), tomorrow, dif_pos hk]

theorem tomorrow_of_last {d : LocalDay} (hlast : d.day = daysIn d.year d.month)
    (hmonth : d.month < 12) :
    d.tomorrow = first d.year (d.month + 1) ⟨Nat.le_add_left 1 _, hmonth⟩ := by
  have hday : ¬ d.day < daysIn d.year d.month := by omega
  rw [tomorrow, dif_neg hday, dif_pos hmonth]

theorem tomorrow_of_last_december {d : LocalDay} (hlast : d.day = daysIn d.year d.month)
    (hmonth : ¬ d.month < 12) : d.tomorrow = first (d.year + 1) 1 (by decide) := by
  have hday : ¬ d.day < daysIn d.year d.month := by omega
  rw [tomorrow, dif_neg hday, dif_neg hmonth]

/-- The years before the first one have no yesterday of their own. -/
theorem tomorrow_yesterday_first {year month : ℕ} (hyear : 1 ≤ year)
    (hmonth : 1 ≤ month ∧ month ≤ 12) :
    (first year month hmonth).yesterday.tomorrow = first year month hmonth := by
  have hday : ¬ 1 < (first year month hmonth).day := Nat.lt_irrefl 1
  by_cases hlt : 1 < month
  · obtain ⟨m, rfl⟩ : ∃ m, month = m + 1 := ⟨month - 1, by omega⟩
    have hyesterday : (first year (m + 1) hmonth).yesterday =
        last year m ⟨Nat.le_of_lt_succ hlt, Nat.le_of_succ_le hmonth.2⟩ := by
      rw [yesterday, dif_neg hday]
      exact dif_pos hlt
    rw [hyesterday, tomorrow_of_last rfl (Nat.lt_of_succ_le hmonth.2)]
    rfl
  · obtain rfl : month = 1 := by omega
    obtain ⟨y, rfl⟩ : ∃ y, year = y + 1 := ⟨year - 1, by omega⟩
    have hyesterday : (first (y + 1) 1 hmonth).yesterday = last y 12 (by decide) := by
      rw [yesterday, dif_neg hday]
      exact dif_neg hlt
    rw [hyesterday, tomorrow_of_last_december rfl (Nat.lt_irrefl 12)]
    rfl

/-- The parts of a day that exists give that day. -/
theorem ofParts_eq (d : LocalDay) (hyear : 100 ≤ d.year) :
    ofParts d.year d.month d.day = d := by
  obtain ⟨year, month, day, hmonth, hday⟩ := d
  obtain ⟨k, rfl⟩ : ∃ k, day = k + 1 := ⟨day - 1, by omega⟩
  have hmonths : 12 * (if year < 100 then 1900 + year else year) + month - 1 =
      12 * year + (month - 1) := by
    rw [if_neg (by exact not_lt.mpr hyear)]
    omega
  have hdiv : (12 * year + (month - 1)) / 12 = year := by omega
  have hmod : (12 * year + (month - 1)) % 12 + 1 = month := by omega
  have hfirst : ∀ (y m : ℕ) (hm : 1 ≤ m ∧ m ≤ 12), y = year → m = month →
      first y m hm = first year month hmonth := by
    rintro y m hm rfl rfl
    rfl
  unfold ofParts
  simp only [hmonths]
  rw [hfirst _ _ _ hdiv hmod, Function.iterate_succ_apply,
    tomorrow_yesterday_first (Nat.le_trans (by decide) hyear) hmonth]
  exact tomorrow_iterate_first hmonth hday.2

theorem fromDateInput_isoDate {d : LocalDay} (h : d.FourDigits) :
    fromDateInput (isoDate d.year d.month d.day) = .day d := by
  have hfields : isoDate d.year d.month d.day =
      [digit (d.year / 1000), digit (d.year / 100), digit (d.year / 10), digit d.year] ++ 45 ::
        ([digit (d.month / 10), digit d.month] ++ 45 :: [digit (d.day / 10), digit d.day]) := rfl
  have hsplit : (isoDate d.year d.month d.day).splitOn 45 =
      [[digit (d.year / 1000), digit (d.year / 100), digit (d.year / 10), digit d.year],
        [digit (d.month / 10), digit d.month], [digit (d.day / 10), digit d.day]] := by
    rw [hfields, List.splitOn_append_cons_self_of_not_mem, List.splitOn_append_cons_self_of_not_mem,
      List.splitOn_eq_singleton]
    all_goals simp [sep_ne_digit]
  have hyear : number [digit (d.year / 1000), digit (d.year / 100), digit (d.year / 10),
      digit d.year] = some d.year := by
    have := h.2
    simp [number]
    omega
  have hmonth : number [digit (d.month / 10), digit d.month] = some d.month := by
    have := d.month_mem
    simp [number]
    omega
  have hday : number [digit (d.day / 10), digit d.day] = some d.day := by
    have := d.day_mem
    have := daysIn_le d.year d.month
    simp [number]
    omega
  have hofParts := d.ofParts_eq (Nat.le_trans (by decide) h.1)
  simp only [fromDateInput, hsplit, List.map_cons, List.map_nil, hyear, hmonth, hday, hofParts]

theorem fromDateInput_toDateInput {d : LocalDay} (h : d.FourDigits) :
    fromDateInput (toDateInput (.day d)) = .day d := by
  rw [toDateInput_day h, fromDateInput_isoDate h]

theorem year_le_of_not_before {a b : LocalDay} (h : a.before b = false) : b.year ≤ a.year := by
  by_contra hlt
  have hbefore : a.before b = true := by simp [before, Nat.lt_of_not_le hlt]
  rw [h] at hbefore
  cases hbefore

/-- `d` may be picked between the days `first` and `last`. -/
def Between (first last d : LocalDay) : Prop := d.before first = false ∧ last.before d = false

theorem FourDigits.of_between {first last d : LocalDay} (hfirst : first.FourDigits)
    (hlast : last.FourDigits) (h : first.Between last d) : d.FourDigits :=
  ⟨hfirst.1.trans (year_le_of_not_before h.1),
    (year_le_of_not_before h.2).trans_lt hlast.2⟩

end LocalDay

/-! ## Dates that exist -/

/-- A date of the calendar, from the first year with rates on. -/
structure IsCalendarDate (s : Str) : Prop where
  iso : isIsoDate s = true
  year : 1999 ≤ decimal (s.take 4)
  month : 1 ≤ decimal ((s.drop 5).take 2) ∧ decimal ((s.drop 5).take 2) ≤ 12
  day : 1 ≤ decimal ((s.drop 8).take 2) ∧
    decimal ((s.drop 8).take 2) ≤ daysIn (decimal (s.take 4)) (decimal ((s.drop 5).take 2))

theorem IsCalendarDate.exists_localDay {s : Str} (h : IsCalendarDate s) :
    ∃ d : LocalDay, d.FourDigits ∧ fromDateInput s = .day d ∧ toDateInput (.day d) = s := by
  let d : LocalDay := ⟨_, _, _, h.month, h.day⟩
  have hfields := isoFields_of_isIsoDate h.iso
  have hs : s = isoDate d.year d.month d.day := hfields.eq_isoDate
  have hyear : d.year < 10 ^ (s.take 4).length :=
    decimal_lt fun c hc ↦ hfields.digits c (by simp [hc])
  rw [hfields.year_length] at hyear
  have hd : d.FourDigits := ⟨Nat.le_trans (by decide) h.year, hyear⟩
  refine ⟨d, hd, ?_, ?_⟩
  · conv_lhs => rw [hs]
    exact LocalDay.fromDateInput_isoDate hd
  · rw [LocalDay.toDateInput_day hd, ← hs]

/-! ## What the server says of them -/

/-- One of the server's two checks of the dates fails: that of the range, or that of the
bounds. -/
def DatesRejected (minDate maxDate : Str) (request : HistoryRequest) : Prop :=
  ∀ range, DateRange.construct request.startDate request.endDate = .ok range →
    range.startDate < minDate ∨ maxDate < range.endDate

/-- The two checks are those by which `GetHistory` admits a request, with the bounds of
`GetConstraints`. -/
theorem datesRejected_iff {request : HistoryRequest} {today : CalendarDate} :
    DatesRejected (str "1999-01-04") today.format request ↔
      ¬ (request.WellFormed ∧ request.InBounds today) := by
  rw [not_and]
  constructor
  · intro hrejected hr hin
    obtain ⟨range, hrange⟩ := HistoryRequest.wellFormed_iff.mp hr
    obtain ⟨hstart, hend⟩ := DateRange.construct_eq_ok.mp hrange
    have hbounds := (HistoryRequest.inBounds_iff hr).mp hin
    rw [← hstart, ← hend] at hbounds
    exact (hrejected range hrange).elim hbounds.1 hbounds.2
  · intro hrejected range hrange
    have hr := HistoryRequest.wellFormed_iff.mpr ⟨range, hrange⟩
    have hout := hrejected hr
    obtain ⟨hstart, hend⟩ := DateRange.construct_eq_ok.mp hrange
    rw [HistoryRequest.inBounds_iff hr, ← hstart, ← hend] at hout
    tauto

section Bounds

variable {minDate maxDate : Str} {first last : LocalDay}

/-- `first` and `last` are the days that the bounds write. -/
structure Bounds (minDate maxDate : Str) (first last : LocalDay) : Prop where
  min : toDateInput (.day first) = minDate
  max : toDateInput (.day last) = maxDate
  first_digits : first.FourDigits
  last_digits : last.FourDigits

theorem Bounds.within (h : Bounds minDate maxDate first last) {d : LocalDay}
    (hd : first.Between last d) :
    isIsoDate (toDateInput (.day d)) = true ∧ ¬ toDateInput (.day d) < minDate ∧
      ¬ maxDate < toDateInput (.day d) := by
  have hdigits := LocalDay.FourDigits.of_between h.first_digits h.last_digits hd
  refine ⟨?_, ?_, ?_⟩
  · rw [LocalDay.toDateInput_day hdigits]
    exact isIsoDate_isoDate _ _ _
  · rw [← h.min, LocalDay.toDateInput_lt_iff hdigits h.first_digits, hd.1]
    decide
  · rw [← h.max, LocalDay.toDateInput_lt_iff h.last_digits hdigits, hd.2]
    decide

theorem Bounds.not_lt_iff (h : Bounds minDate maxDate first last) {a b : LocalDay}
    (ha : first.Between last a) (hb : first.Between last b) :
    ¬ toDateInput (.day b) < toDateInput (.day a) ↔ b.before a = false := by
  have hadigits := LocalDay.FourDigits.of_between h.first_digits h.last_digits ha
  have hbdigits := LocalDay.FourDigits.of_between h.first_digits h.last_digits hb
  rw [LocalDay.toDateInput_lt_iff hbdigits hadigits, Bool.not_eq_true]

theorem Bounds.rejected_iff (h : Bounds minDate maxDate first last) {a b : LocalDay}
    (ha : first.Between last a) (hb : first.Between last b) {request : HistoryRequest}
    (hstart : request.startDate = toDateInput (.day a))
    (hend : request.endDate = toDateInput (.day b)) :
    DatesRejected minDate maxDate request ↔ b.before a = true := by
  have hwithin := h.within ha
  have hwithin' := h.within hb
  rw [← Bool.not_eq_false, ← h.not_lt_iff ha hb, not_not]
  constructor
  · intro hrejected
    by_contra hord
    let range : DateRange := ⟨_, _, hwithin.1, hwithin'.1, hord⟩
    have hrange : DateRange.construct request.startDate request.endDate = .ok range :=
      DateRange.construct_eq_ok.mpr ⟨hstart.symm, hend.symm⟩
    rcases hrejected range hrange with hlow | hhigh
    · exact hwithin.2.1 hlow
    · exact hwithin'.2.2 hhigh
  · intro hlt range hrange
    obtain ⟨hrstart, hrend⟩ := DateRange.construct_eq_ok.mp hrange
    have hord := range.ordered
    rw [hrstart, hrend, hstart, hend] at hord
    exact absurd hlt hord

end Bounds

/-! ## The form -/

section Form

variable {D : Type} {c : Conversion D} {first last : LocalDay}

theorem between_of_valid (hmin : c.minDate = some (.day first))
    (hmax : c.maxDate = some (.day last)) {date : Option Date} (h : c.dateInvalid date = false) :
    ∃ d, date = some (.day d) ∧ first.Between last d := by
  cases date with
  | none => cases h
  | some date =>
      cases date with
      | invalid => cases h
      | day d =>
          rw [Conversion.dateInvalid, hmin, hmax] at h
          exact ⟨d, rfl, Bool.or_eq_false_iff.mp h⟩

variable [Double D]

theorem submission_eq_some {submission : Submission D} (h : c.submission = some submission) :
    c.dateInvalid c.form.startDate = false ∧ c.dateInvalid c.form.endDate = false ∧
      ∃ startDate endDate, c.form.startDate = some startDate ∧ c.form.endDate = some endDate ∧
        submission.startDate = toDateInput startDate ∧
        submission.endDate = toDateInput endDate := by
  unfold Conversion.submission at h
  split at h
  · cases h
  · next hvalid =>
      split at h
      · next amount startDate endDate _ hstart hend =>
          cases h
          rw [Conversion.invalid] at hvalid
          simp only [Bool.or_eq_true, not_or, Bool.not_eq_true] at hvalid
          exact ⟨hvalid.1.2, hvalid.2, startDate, endDate, hstart, hend, rfl, rfl⟩
      · cases h

end Form

/-- The client writes the days of the calendar as the server reads them: round trip, the
server's format, its bounds and its order.  Of the dates of a form that was submitted
the server rejects only those whose start is after their end. -/
theorem date_encoding_agrees {D : Type} [Double D] :
    (∀ s, IsCalendarDate s → toDateInput (fromDateInput s) = s) ∧
    ∀ minDate maxDate, IsCalendarDate minDate → IsCalendarDate maxDate →
      ∃ first last, fromDateInput minDate = .day first ∧ fromDateInput maxDate = .day last ∧
        (∀ a b, first.Between last a → first.Between last b →
          (∀ d ∈ [a, b], isIsoDate (toDateInput (.day d)) = true ∧
            ¬ toDateInput (.day d) < minDate ∧ ¬ maxDate < toDateInput (.day d)) ∧
          (¬ toDateInput (.day b) < toDateInput (.day a) ↔ b.before a = false)) ∧
        ∀ (c : Conversion D) (submission : Submission D),
          c.minDate = some (fromDateInput minDate) → c.maxDate = some (fromDateInput maxDate) →
          c.submission = some submission →
          (DatesRejected minDate maxDate submission.getHistory ↔
            ∃ a b, c.form.startDate = some (.day a) ∧ c.form.endDate = some (.day b) ∧
              b.before a = true) := by
  constructor
  · intro s hs
    obtain ⟨d, _, hread, hwrite⟩ := hs.exists_localDay
    rw [hread, hwrite]
  · intro minDate maxDate hmin hmax
    obtain ⟨first, hfirst, hreadMin, hwriteMin⟩ := hmin.exists_localDay
    obtain ⟨last, hlast, hreadMax, hwriteMax⟩ := hmax.exists_localDay
    have hbounds : Bounds minDate maxDate first last := ⟨hwriteMin, hwriteMax, hfirst, hlast⟩
    refine ⟨first, last, hreadMin, hreadMax, ?_, ?_⟩
    · intro a b ha hb
      refine ⟨?_, hbounds.not_lt_iff ha hb⟩
      intro d hd
      rcases List.mem_pair.mp hd with rfl | rfl
      · exact hbounds.within ha
      · exact hbounds.within hb
    · intro c submission hcmin hcmax hsubmission
      rw [hreadMin] at hcmin
      rw [hreadMax] at hcmax
      obtain ⟨hstartValid, hendValid, startDate, endDate, hstart, hend, hwriteStart, hwriteEnd⟩ :=
        submission_eq_some hsubmission
      obtain ⟨a, ha, habetween⟩ := between_of_valid hcmin hcmax hstartValid
      obtain ⟨b, hb, hbbetween⟩ := between_of_valid hcmin hcmax hendValid
      cases hstart.symm.trans ha
      cases hend.symm.trans hb
      rw [hbounds.rejected_iff habetween hbbetween hwriteStart hwriteEnd]
      constructor
      · exact fun hbefore ↦ ⟨a, b, ha, hb, hbefore⟩
      · rintro ⟨a', b', ha', hb', hbefore⟩
        cases ha.symm.trans ha'
        cases hb.symm.trans hb'
        exact hbefore

def leapDay : LocalDay := ⟨2024, 2, 29, by decide, by decide⟩

def dayAfter : LocalDay := leapDay.tomorrow

/-- The start is the first of March, the end the day before. -/
def leapForm : Conversion ℚ :=
  { Conversion.init.lookupsLoaded [] ⟨1, 1000, str "1999-01-04", str "2024-03-01"⟩ with
    form := ⟨str "USD", str "EUR", some 100, some (.day dayAfter), some (.day leapDay)⟩ }

theorem date_encoding_agrees_leapDay :
    toDateInput (fromDateInput (str "2024-02-29")) = str "2024-02-29" ∧
    (∀ d ∈ [leapDay, dayAfter], isIsoDate (toDateInput (.day d)) = true ∧
      ¬ toDateInput (.day d) < str "1999-01-04" ∧ ¬ str "2024-03-01" < toDateInput (.day d)) ∧
    ¬ toDateInput (.day dayAfter) < toDateInput (.day leapDay) ∧
    ∃ submission, leapForm.submission = some submission ∧
      DatesRejected (str "1999-01-04") (str "2024-03-01") submission.getHistory := by
  have hmin : IsCalendarDate (str "1999-01-04") := ⟨by decide, by decide, by decide, by decide⟩
  have hmax : IsCalendarDate (str "2024-03-01") := ⟨by decide, by decide, by decide, by decide⟩
  obtain ⟨first, last, hfirst, hlast, hdays, hform⟩ :=
    (date_encoding_agrees (D := ℚ)).2 _ _ hmin hmax
  have hfirst' : fromDateInput (str "1999-01-04") =
      .day ⟨1999, 1, 4, by decide, by decide⟩ := by
    with_unfolding_all rfl
  have hlast' : fromDateInput (str "2024-03-01") = .day dayAfter := by
    with_unfolding_all rfl
  obtain rfl := Date.day.inj (hfirst.symm.trans hfirst')
  obtain rfl := Date.day.inj (hlast.symm.trans hlast')
  obtain ⟨hwithin, hordered⟩ := hdays leapDay dayAfter ⟨by decide, by decide⟩
    ⟨by decide, by decide⟩
  have hsubmission : leapForm.submission =
      some ⟨str "USD", str "EUR", 100, str "2024-03-01", str "2024-02-29"⟩ := by
    with_unfolding_all rfl
  refine ⟨(date_encoding_agrees (D := ℚ)).1 _ ⟨by decide, by decide, by decide, by decide⟩,
    hwithin, hordered.mpr (by decide), _, hsubmission, ?_⟩
  exact (hform leapForm _ rfl rfl hsubmission).mpr ⟨dayAfter, leapDay, rfl, rfl, by decide⟩

end CurrencyConverter
