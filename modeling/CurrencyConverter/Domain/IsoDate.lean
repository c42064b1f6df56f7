import CurrencyConverter.Domain.Model
import CurrencyConverter.Library.FixedWidth
import Mathlib.Data.List.Basic
import Mathlib.Data.Prod.Lex

/-!
# ISO dates as numbers

The server compares dates as strings.  Strings of the shape `dddd-dd-dd` are ordered
as the triples of the numbers they write.
-/

namespace CurrencyConverter

open FixedWidth

def digitValue (c : UInt8) : ℕ := c.toNat - 48

/-- The number a string of digits writes. -/
def decimal (s : Str) : ℕ := value 10 (s.map digitValue)

abbrev DateNumbers := ℕ ×ₗ ℕ ×ₗ ℕ

/-- Year, month and day, the year first in the order. -/
def ymd (year month day : ℕ) : DateNumbers := toLex (year, toLex (month, day))

def dateNumbers (s : Str) : DateNumbers :=
  ymd (decimal (s.take 4)) (decimal ((s.drop 5).take 2)) (decimal ((s.drop 8).take 2))

/-! ## Digits -/

theorem digit_bounds {c : UInt8} (hc : isdigit c = true) : 48 ≤ c.toNat ∧ c.toNat ≤ 57 := by
  rw [isdigit, Bool.and_eq_true, decide_eq_true_eq, decide_eq_true_eq] at hc
  exact ⟨UInt8.le_iff_toNat_le.mp hc.1, UInt8.le_iff_toNat_le.mp hc.2⟩

theorem digitValue_lt_ten {c : UInt8} (hc : isdigit c = true) : digitValue c < 10 := by
  have := digit_bounds hc
  unfold digitValue
  omega

theorem digitValue_eq_iff (c d : UInt8) (hc : isdigit c = true) (hd : isdigit d = true) :
    digitValue c = digitValue d ↔ c = d := by
  have := digit_bounds hc
  have := digit_bounds hd
  rw [← UInt8.toNat_inj, digitValue, digitValue]
  omega

theorem digitValue_lt_iff (c d : UInt8) (hc : isdigit c = true) (hd : isdigit d = true) :
    digitValue c < digitValue d ↔ c < d := by
  have := digit_bounds hc
  have := digit_bounds hd
  rw [UInt8.lt_iff_toNat_lt, digitValue, digitValue]
  omega

@[simp] theorem digit_toNat (n : ℕ) : (digit n).toNat = 48 + n % 10 := by
  rw [digit, UInt8.toNat_ofNat']
  omega

@[simp] theorem isdigit_digit (n : ℕ) : isdigit (digit n) = true := by
  have hlow : (48 : UInt8) ≤ digit n := by
    rw [UInt8.le_iff_toNat_le, digit_toNat]
    exact Nat.le_add_right 48 _
  have hhigh : digit n ≤ 57 := by
    rw [UInt8.le_iff_toNat_le, digit_toNat]
    have : n % 10 < 10 := Nat.mod_lt n (by decide)
    simp only [UInt8.reduceToNat]
    omega
  simp [isdigit, hlow, hhigh]

@[simp] theorem digitValue_digit (n : ℕ) : digitValue (digit n) = n % 10 := by
  rw [digitValue, digit_toNat, Nat.add_sub_cancel_left]

theorem digit_digitValue {c : UInt8} (hc : isdigit c = true) : digit (digitValue c) = c := by
  have := digit_bounds hc
  rw [← UInt8.toNat_inj, digit_toNat, digitValue]
  omega

theorem map_digit_digitValue {s : Str} (hs : ∀ c ∈ s, isdigit c = true) :
    (s.map digitValue).map digit = s := by
  rw [List.map_map]
  exact (List.map_congr_left fun c hc ↦ digit_digitValue (hs c hc)).trans (List.map_id s)

theorem decimal_lt {s : Str} (hs : ∀ c ∈ s, isdigit c = true) : decimal s < 10 ^ s.length := by
  have hdigits : ∀ d ∈ s.map digitValue, d < 10 := by
    simpa using fun c hc ↦ digitValue_lt_ten (hs c hc)
  simpa [decimal] using valueFrom_lt_pow (n := 0) hdigits

section Digits

variable {s t : Str} (hlen : s.length = t.length) (hs : ∀ c ∈ s, isdigit c = true)
  (ht : ∀ c ∈ t, isdigit c = true)

include hlen hs ht

theorem digits_lt_iff : s < t ↔ decimal s < decimal t := by
  rw [← map_lt_map_iff digitValue_lt_iff digitValue_eq_iff hs ht]
  apply lt_iff_value_lt
  · simpa using hlen
  · simpa using fun c hc ↦ digitValue_lt_ten (hs c hc)
  · simpa using fun c hc ↦ digitValue_lt_ten (ht c hc)

theorem digits_eq_iff : s = t ↔ decimal s = decimal t := by
  have hmap : s.map digitValue = t.map digitValue ↔ s = t := by
    constructor
    · intro h
      rw [← map_digit_digitValue hs, ← map_digit_digitValue ht, h]
    · exact congrArg _
  rw [← hmap]
  apply eq_iff_value_eq
  · simpa using hlen
  · simpa using fun c hc ↦ digitValue_lt_ten (hs c hc)
  · simpa using fun c hc ↦ digitValue_lt_ten (ht c hc)

end Digits

/-! ## The shape of a date -/

/-- A string of the shape `dddd-dd-dd`, cut at its separators. -/
structure IsoFields (s year month day : Str) : Prop where
  eq : s = year ++ 45 :: (month ++ 45 :: day)
  year_length : year.length = 4
  month_length : month.length = 2
  day_length : day.length = 2
  digits : ∀ c ∈ year ++ (month ++ day), isdigit c = true

theorem isIsoDate_iff {s : Str} : isIsoDate s = true ↔ s.length = 10 ∧ s[4]? = some 45 ∧
    s[7]? = some 45 ∧ ∀ i < s.length, i ≠ 4 → i ≠ 7 → ∃ c, s[i]? = some c ∧ isdigit c = true := by
  unfold isIsoDate
  split
  · grind
  · simp only [List.all_eq_true, List.mem_range, Bool.or_eq_true, decide_eq_true_eq,
      Option.any_eq_true]
    grind

theorem isoFields_of_isIsoDate {s : Str} (hs : isIsoDate s = true) :
    IsoFields s (s.take 4) ((s.drop 5).take 2) ((s.drop 8).take 2) := by
  obtain ⟨hlen, h4, h7, hdigit⟩ := isIsoDate_iff.mp hs
  have hsep : ∀ {n m : ℕ}, s[n]? = some 45 → m = n + 1 → s.drop n = 45 :: s.drop m := by
    rintro n m h rfl
    obtain ⟨hn, hget⟩ := List.getElem?_eq_some_iff.mp h
    rw [List.drop_eq_getElem_cons hn, hget]
  have hfield : ∀ i n, (∀ j, i ≤ j → j < i + n → j < 10 ∧ j ≠ 4 ∧ j ≠ 7) →
      ∀ c ∈ (s.drop i).take n, isdigit c = true := by
    intro i n hj c hc
    obtain ⟨k, hk⟩ := List.getElem?_of_mem hc
    have hkn : k < n := by grind
    obtain ⟨hlt, hne⟩ := hj (i + k) (by omega) (by omega)
    obtain ⟨c', hc', hd⟩ := hdigit (i + k) (by omega) hne.1 hne.2
    have hget : s[i + k]? = some c := by simpa [List.getElem?_take, hkn] using hk
    rw [hget] at hc'
    cases hc'
    exact hd
  constructor
  · calc s = s.take 4 ++ s.drop 4 := (List.take_append_drop 4 s).symm
      _ = s.take 4 ++ 45 :: s.drop 5 := by rw [hsep h4 rfl]
      _ = s.take 4 ++ 45 :: ((s.drop 5).take 2 ++ s.drop 7) := by
          rw [← List.drop_drop (i := 2) (j := 5), List.take_append_drop]
      _ = s.take 4 ++ 45 :: ((s.drop 5).take 2 ++ 45 :: (s.drop 8).take 2) := by
          rw [hsep h7 rfl, List.take_of_length_le (l := s.drop 8) (by simp [hlen])]
  · simp [hlen]
  · simp [hlen]
  · simp [hlen]
  · intro c hc
    rcases List.mem_append.mp hc with hyear | hrest
    · exact hfield 0 4 (by omega) c hyear
    · rcases List.mem_append.mp hrest with hmonth | hday
      · exact hfield 5 2 (by omega) c hmonth
      · exact hfield 8 2 (by omega) c hday

/-! ## The order of dates -/

theorem ymd_lt_iff {year month day year' month' day' : ℕ} :
    ymd year month day < ymd year' month' day' ↔
      year < year' ∨ year = year' ∧ (month < month' ∨ month = month' ∧ day < day') := by
  rw [ymd, ymd, Prod.Lex.toLex_lt_toLex, Prod.Lex.toLex_lt_toLex]

theorem isoDate_lt_iff {s t : Str} (hs : isIsoDate s = true) (ht : isIsoDate t = true) :
    s < t ↔ dateNumbers s < dateNumbers t := by
  have hfs := isoFields_of_isIsoDate hs
  have hft := isoFields_of_isIsoDate ht
  have hyear : ∀ c ∈ s.take 4, isdigit c = true := fun c hc ↦ hfs.digits c (by simp [hc])
  have hyear' : ∀ c ∈ t.take 4, isdigit c = true := fun c hc ↦ hft.digits c (by simp [hc])
  have hmonth : ∀ c ∈ (s.drop 5).take 2, isdigit c = true := fun c hc ↦ hfs.digits c (by simp [hc])
  have hmonth' : ∀ c ∈ (t.drop 5).take 2, isdigit c = true :=
    fun c hc ↦ hft.digits c (by simp [hc])
  have hday : ∀ c ∈ (s.drop 8).take 2, isdigit c = true := fun c hc ↦ hfs.digits c (by simp [hc])
  have hday' : ∀ c ∈ (t.drop 8).take 2, isdigit c = true := fun c hc ↦ hft.digits c (by simp [hc])
  have hyears := hfs.year_length.trans hft.year_length.symm
  have hmonths := hfs.month_length.trans hft.month_length.symm
  have hdays := hfs.day_length.trans hft.day_length.symm
  have hstrings : s < t ↔ s.take 4 < t.take 4 ∨ s.take 4 = t.take 4 ∧
      ((s.drop 5).take 2 < (t.drop 5).take 2 ∨ (s.drop 5).take 2 = (t.drop 5).take 2 ∧
        (s.drop 8).take 2 < (t.drop 8).take 2) := by
    conv_lhs => rw [hfs.eq, hft.eq]
    rw [append_lt_append_iff hyears, List.cons_lt_cons_iff, append_lt_append_iff hmonths,
      List.cons_lt_cons_iff]
    simp
  rw [hstrings, dateNumbers, dateNumbers, ymd_lt_iff, digits_lt_iff hyears hyear hyear',
    digits_eq_iff hyears hyear hyear', digits_lt_iff hmonths hmonth hmonth',
    digits_eq_iff hmonths hmonth hmonth', digits_lt_iff hdays hday hday']

theorem isoDate_not_lt_iff {s t : Str} (hs : isIsoDate s = true) (ht : isIsoDate t = true) :
    ¬ s < t ↔ dateNumbers t ≤ dateNumbers s := by
  rw [isoDate_lt_iff hs ht, not_lt]

/-! ## Dates that are written -/

/-- The shape `dddd-dd-dd` with these numbers. -/
def isoDate (year month day : ℕ) : Str :=
  [digit (year / 1000), digit (year / 100), digit (year / 10), digit year, 45,
    digit (month / 10), digit month, 45, digit (day / 10), digit day]

theorem isIsoDate_isoDate (year month day : ℕ) : isIsoDate (isoDate year month day) = true := by
  simp [isIsoDate, isoDate, List.range_succ]

theorem dateNumbers_isoDate {year month day : ℕ} (hyear : year < 10000) (hmonth : month < 100)
    (hday : day < 100) : dateNumbers (isoDate year month day) = ymd year month day := by
  have hy : decimal ((isoDate year month day).take 4) = year := by
    simp [isoDate, decimal, value, valueFrom]
    omega
  have hm : decimal (((isoDate year month day).drop 5).take 2) = month := by
    simp [isoDate, decimal, value, valueFrom]
    omega
  have hd : decimal (((isoDate year month day).drop 8).take 2) = day := by
    simp [isoDate, decimal, value, valueFrom]
    omega
  rw [dateNumbers, hy, hm, hd]

theorem digit_eq_of_mod {c : UInt8} (hc : isdigit c = true) {n : ℕ}
    (hn : n % 10 = digitValue c) : digit n = c := by
  rw [← digit_digitValue hc, ← hn, digit, digit, Nat.mod_mod]

theorem eq_digits_of_length_two {s : Str} (hlen : s.length = 2)
    (hs : ∀ c ∈ s, isdigit c = true) : s = [digit (decimal s / 10), digit (decimal s)] := by
  obtain ⟨c, d, rfl⟩ := List.length_eq_two.mp hlen
  have hc : isdigit c = true := hs c (by simp)
  have hd : isdigit d = true := hs d (by simp)
  have := digitValue_lt_ten hc
  have := digitValue_lt_ten hd
  have hvalue : decimal [c, d] = 10 * digitValue c + digitValue d := by
    simp [decimal, value, valueFrom]
  rw [hvalue, digit_eq_of_mod hc (by omega), digit_eq_of_mod hd (by omega)]

theorem eq_digits_of_length_four {s : Str} (hlen : s.length = 4)
    (hs : ∀ c ∈ s, isdigit c = true) : s = [digit (decimal s / 1000), digit (decimal s / 100),
      digit (decimal s / 10), digit (decimal s)] := by
  obtain ⟨c, d, e, f, rfl⟩ := List.length_eq_four.mp hlen
  have hc : isdigit c = true := hs c (by simp)
  have hd : isdigit d = true := hs d (by simp)
  have he : isdigit e = true := hs e (by simp)
  have hf : isdigit f = true := hs f (by simp)
  have := digitValue_lt_ten hc
  have := digitValue_lt_ten hd
  have := digitValue_lt_ten he
  have := digitValue_lt_ten hf
  have hvalue : decimal [c, d, e, f] =
      10 * (10 * (10 * digitValue c + digitValue d) + digitValue e) + digitValue f := by
    simp [decimal, value, valueFrom]
  rw [hvalue, digit_eq_of_mod hc (by omega), digit_eq_of_mod hd (by omega),
    digit_eq_of_mod he (by omega), digit_eq_of_mod hf (by omega)]

/-- A date is what is written for its numbers. -/
theorem IsoFields.eq_isoDate {s year month day : Str} (h : IsoFields s year month day) :
    s = isoDate (decimal year) (decimal month) (decimal day) := by
  have hyear := eq_digits_of_length_four h.year_length fun c hc ↦ h.digits c (by simp [hc])
  have hmonth := eq_digits_of_length_two h.month_length fun c hc ↦ h.digits c (by simp [hc])
  have hday := eq_digits_of_length_two h.day_length fun c hc ↦ h.digits c (by simp [hc])
  rw [h.eq]
  conv_lhs => rw [hyear, hmonth, hday]
  rfl

namespace CalendarDate

abbrev numbers (d : CalendarDate) : DateNumbers := ymd d.year d.month d.day

theorem isIsoDate_format (d : CalendarDate) : isIsoDate d.format = true :=
  isIsoDate_isoDate d.year d.month d.day

theorem dateNumbers_format (d : CalendarDate) : dateNumbers d.format = d.numbers := by
  have := d.month_mem
  have := d.day_mem
  exact dateNumbers_isoDate d.year_lt (by omega) (by omega)

end CalendarDate

/-! ## The first day with rates -/

theorem isIsoDate_minDate : isIsoDate (str "1999-01-04") = true := by decide

theorem dateNumbers_minDate : dateNumbers (str "1999-01-04") = ymd 1999 1 4 := by decide

namespace DateRange

theorem construct_eq_ok_iff {startDate endDate : Str} :
    (∃ range, construct startDate endDate = .ok range) ↔
      isIsoDate startDate = true ∧ isIsoDate endDate = true ∧
        dateNumbers startDate ≤ dateNumbers endDate := by
  constructor
  · rintro ⟨range, h⟩
    obtain ⟨rfl, rfl⟩ := construct_eq_ok.mp h
    exact ⟨range.start_iso, range.end_iso,
      (isoDate_not_lt_iff range.end_iso range.start_iso).mp range.ordered⟩
  · rintro ⟨hstart, hend, hle⟩
    exact ⟨⟨startDate, endDate, hstart, hend, (isoDate_not_lt_iff hend hstart).mpr hle⟩,
      construct_eq_ok.mpr ⟨rfl, rfl⟩⟩

theorem construct_error {startDate endDate : Str} {ex : Exception}
    (h : construct startDate endDate = .error ex) : ∃ what, ex = .invalidArgument what := by
  unfold construct at h
  split at h
  · split at h
    · cases h
      exact ⟨_, rfl⟩
    · cases h
  · cases h
    exact ⟨_, rfl⟩

end DateRange

end CurrencyConverter
