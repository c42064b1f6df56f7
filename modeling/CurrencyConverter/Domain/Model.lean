import Mathlib.Algebra.Group.Defs
import Mathlib.Algebra.Order.Ring.Rat
import Mathlib.Data.Nat.Notation
import Mathlib.Tactic.SplitIfs

/-!
# Domain types

A `std::string` is its bytes, compared as `std::string` compares them.  A
`DateRange` carries what its constructor checks.  The doubles are any type with
the operations the services use.
-/

namespace CurrencyConverter

abbrev Str := List UInt8

def str (s : String) : Str := s.toList.map fun c ↦ UInt8.ofNat c.toNat

/-- What a caught `std::exception` can be, with its `what()`. -/
inductive Exception
  | invalidArgument (what : Str)
  | currencyNotFound (what : Str)
  | externalApiUnavailable (what : Str)
  | externalApiUnexpectedResponse (what : Str)
  | other (what : Str)
  deriving DecidableEq

/-- `std::toupper` in the C locale, on every byte. -/
def toUpper (value : Str) : Str :=
  value.map fun c ↦ if 97 ≤ c ∧ c ≤ 122 then c - 32 else c

theorem toUpper_toUpper (value : Str) : toUpper (toUpper value) = toUpper value := by
  rw [toUpper, toUpper, List.map_map]
  apply List.map_congr_left
  intro c _
  rw [Function.comp_apply]
  by_cases hc : 97 ≤ c ∧ c ≤ 122
  · have hlow : (97 : UInt8).toNat ≤ c.toNat := UInt8.le_iff_toNat_le.mp hc.1
    have hhigh : c.toNat ≤ (122 : UInt8).toNat := UInt8.le_iff_toNat_le.mp hc.2
    have hsub : (c - 32).toNat = c.toNat - (32 : UInt8).toNat := by
      apply UInt8.toNat_sub_of_le
      exact UInt8.le_iff_toNat_le.mpr (Nat.le_trans (by decide) hlow)
    have hupper : ¬ 97 ≤ c - 32 := by
      rw [UInt8.le_iff_toNat_le, hsub]
      simp only [UInt8.reduceToNat] at hlow hhigh ⊢
      omega
    simp [hc, hupper]
  · simp [hc]

/-! ## Dates -/

def isdigit (c : UInt8) : Bool := 48 ≤ c && c ≤ 57

def isIsoDate (s : Str) : Bool :=
  if s.length ≠ 10 ∨ s[4]? ≠ some 45 ∨ s[7]? ≠ some 45 then false
  else (List.range s.length).all fun i ↦ i = 4 || i = 7 || s[i]?.any isdigit

structure DateRange where
  startDate : Str
  endDate : Str
  start_iso : isIsoDate startDate = true
  end_iso : isIsoDate endDate = true
  ordered : ¬ endDate < startDate
  deriving DecidableEq

namespace DateRange

@[ext] theorem ext {r r' : DateRange} (hstart : r.startDate = r'.startDate)
    (hend : r.endDate = r'.endDate) : r = r' := by
  cases r
  cases r'
  cases hstart
  cases hend
  rfl

def construct (startDate endDate : Str) : Except Exception DateRange :=
  if hiso : isIsoDate startDate = true ∧ isIsoDate endDate = true then
    if hord : endDate < startDate then
      .error (.invalidArgument (str "start_date must not be after end_date"))
    else .ok ⟨startDate, endDate, hiso.1, hiso.2, hord⟩
  else .error (.invalidArgument (str "dates must be in YYYY-MM-DD format"))

theorem construct_eq_ok {startDate endDate : Str} {range : DateRange} :
    construct startDate endDate = .ok range ↔
      range.startDate = startDate ∧ range.endDate = endDate := by
  constructor
  · intro h
    unfold construct at h
    split_ifs at h
    cases h
    exact ⟨rfl, rfl⟩
  · rintro ⟨rfl, rfl⟩
    simp [construct, range.start_iso, range.end_iso, range.ordered]

end DateRange

/-- A day of the system clock's calendar, with a year of four digits. -/
structure CalendarDate where
  year : ℕ
  month : ℕ
  day : ℕ
  year_lt : year < 10000
  month_mem : 1 ≤ month ∧ month ≤ 12
  day_mem : 1 ≤ day ∧ day ≤ 31

def digit (n : ℕ) : UInt8 := UInt8.ofNat (48 + n % 10)

/-- `fmt::format("{:%Y-%m-%d}", today)`. -/
def CalendarDate.format (d : CalendarDate) : Str :=
  [digit (d.year / 1000), digit (d.year / 100), digit (d.year / 10), digit d.year, 45,
    digit (d.month / 10), digit d.month, 45, digit (d.day / 10), digit d.day]

/-! ## Rates and amounts -/

/-- What the services ask of `double`; `format` is `fmt::format("{}", x)`. -/
class Double (D : Type) extends Mul D, LT D, OfScientific D where
  decidableLT : DecidableLT D
  isfinite : D → Bool
  format : D → Str

instance Double.instDecidableLT (D : Type) [Double D] : DecidableLT D := Double.decidableLT

/-- Exact arithmetic without rounding.  Only the two bounds of an amount are ever
formatted. -/
instance : Double ℚ where
  decidableLT := inferInstance
  isfinite _ := true
  format x := if x = 0.01 then str "0.01" else str "1000000000"

structure Currency where
  code : Str
  fullName : Str
  deriving DecidableEq

structure ExchangeRate (D : Type) where
  base : Str
  quote : Str
  rate : D
  date : Str
  deriving DecidableEq

structure Constraints (D : Type) where
  minAmount : D
  maxAmount : D
  minDate : Str
  maxDate : Str

structure ConversionResult (D : Type) where
  sourceAmount : D
  convertedAmount : D
  exchangeRate : D
  rateDate : Str

end CurrencyConverter
