import CurrencyConverter.Grpc.CurrencyServiceImpl
import CurrencyConverter.Library.EventRun

/-!
# The Conversion component of the client

The component holds the form, the answers of its calls and what it shows of them.
Its events are what the user does to the form and what becomes of its calls; the
asynchronous functions are cut where they wait.
-/

namespace CurrencyConverter

/-! ## Dates of the client -/

def daysIn (year month : ℕ) : ℕ :=
  match month with
  | 2 => if year % 4 = 0 ∧ (year % 100 ≠ 0 ∨ year % 400 = 0) then 29 else 28
  | 4 | 6 | 9 | 11 => 30
  | _ => 31

theorem daysIn_pos (year month : ℕ) : 1 ≤ daysIn year month := by
  unfold daysIn
  split
  · split <;> decide
  all_goals decide

structure LocalDay where
  year : ℕ
  month : ℕ
  day : ℕ
  month_mem : 1 ≤ month ∧ month ≤ 12
  day_mem : 1 ≤ day ∧ day ≤ daysIn year month
  deriving DecidableEq

namespace LocalDay

def first (year month : ℕ) (hmonth : 1 ≤ month ∧ month ≤ 12) : LocalDay :=
  ⟨year, month, 1, hmonth, le_rfl, daysIn_pos year month⟩

def last (year month : ℕ) (hmonth : 1 ≤ month ∧ month ≤ 12) : LocalDay :=
  ⟨year, month, daysIn year month, hmonth, daysIn_pos year month, le_rfl⟩

def tomorrow (d : LocalDay) : LocalDay :=
  if hday : d.day < daysIn d.year d.month then
    ⟨d.year, d.month, d.day + 1, d.month_mem, by omega, hday⟩
  else if hmonth : d.month < 12 then first d.year (d.month + 1) (by omega)
  else first (d.year + 1) 1 (by omega)

def yesterday (d : LocalDay) : LocalDay :=
  if hday : 1 < d.day then
    ⟨d.year, d.month, d.day - 1, d.month_mem, by omega, le_trans (by omega) d.day_mem.2⟩
  else if hmonth : 1 < d.month then
    last d.year (d.month - 1) (by have := d.month_mem; omega)
  else last (d.year - 1) 12 (by omega)

/-- `new Date(year, month - 1, day)`: a month or a day out of range runs over into
the neighbouring ones, and the years before 100 are those of the twentieth century. -/
def ofParts (year month day : ℕ) : LocalDay :=
  let months := 12 * (if year < 100 then 1900 + year else year) + month - 1
  tomorrow^[day] (first (months / 12) (months % 12 + 1) (by omega)).yesterday

def before (a b : LocalDay) : Bool :=
  a.year < b.year || a.year = b.year &&
    (a.month < b.month || a.month = b.month && a.day < b.day)

end LocalDay

/-- A `Date` of the date pickers, by its local day. -/
inductive Date
  | invalid
  | day (d : LocalDay)
  deriving DecidableEq

def toDateInput : Date → Str
  | .invalid => str "NaN-NaN-NaN"
  | .day d =>
      str (toString d.year) ++ 45 :: (str (toString d.month)).leftpad 2 48 ++
        45 :: (str (toString d.day)).leftpad 2 48

/-- `Number` of a string of digits; the parts of a date the server sends are no
others. -/
def number (s : Str) : Option ℕ :=
  if s.all isdigit then some (s.foldl (fun n c ↦ 10 * n + (c.toNat - 48)) 0) else none

def fromDateInput (value : Str) : Date :=
  match (value.splitOn 45).map number with
  | some year :: some month :: some day :: _ => .day (.ofParts year month day)
  | _ => .invalid

/-! ## Errors of a call -/

inductive Code
  | canceled | unknown | invalidArgument | deadlineExceeded | notFound | alreadyExists
  | permissionDenied | resourceExhausted | failedPrecondition | aborted | outOfRange
  | unimplemented | internal | unavailable | dataLoss | unauthenticated
  deriving DecidableEq

inductive ClientError
  | connectError (code : Code) (message : Str)
  | other
  deriving DecidableEq

def toUserMessage : ClientError → Str
  | .connectError .invalidArgument message => message
  | .connectError .notFound message => message
  | .connectError .unavailable _ =>
      str "The service is temporarily unavailable. Please try again in a moment."
  | _ => str "Something went wrong. Please try again later."

/-! ## The component -/

/-- `form.value`; an empty control of the amount or of a date is `none`. -/
structure Form (D : Type) where
  sourceCurrency : Str
  targetCurrency : Str
  amount : Option D
  startDate : Option Date
  endDate : Option Date
  deriving DecidableEq

structure Submission (D : Type) where
  sourceCurrency : Str
  targetCurrency : Str
  amount : D
  startDate : Str
  endDate : Str

structure Conversion (D : Type) where
  currencies : List CurrencyInfo
  constraints : Option (ConstraintsResponse D)
  loadingLookups : Bool
  lookupError : Option Str
  submitting : Bool
  result : Option (ConvertResponse D)
  historyPoints : List (HistoryPoint D)
  minDate : Option Date
  maxDate : Option Date
  form : Form D
  notification : Option Str

/-- What the template shows of the result, its labels as they are read when it is
rendered, and the inputs of the chart. -/
structure ResultBlock (D : Type) where
  sourceAmount : D
  sourceLabel : Str
  convertedAmount : D
  targetLabel : Str
  exchangeRate : D
  rateDate : Str
  points : List (HistoryPoint D)
  chartSourceCurrency : Str
  chartTargetCurrency : Str

structure ChartData (D : Type) where
  label : Str
  labels : List Str
  data : List D

variable {D : Type}

def Submission.convert (submission : Submission D) : ConvertRequest D :=
  ⟨submission.sourceCurrency, submission.targetCurrency, submission.amount⟩

def Submission.getHistory (submission : Submission D) : HistoryRequest :=
  ⟨submission.sourceCurrency, submission.targetCurrency, submission.startDate,
    submission.endDate⟩

/-- `HistoryChart.chartData` of the inputs that the block passes. -/
def ResultBlock.chartData (block : ResultBlock D) : ChartData D where
  label := block.chartSourceCurrency ++ str "/" ++ block.chartTargetCurrency
  labels := block.points.map HistoryPoint.date
  data := block.points.map HistoryPoint.rate

/-- A submission and the pair of responses that its calls succeeded with. -/
@[ext]
structure Delivery (D : Type) where
  submission : Submission D
  convertResponse : ConvertResponse D
  historyResponse : HistoryResponse D

/-- The block shows the responses of the delivery under the currencies of its submission, and
so does the chart. -/
structure Delivery.Shown (delivery : Delivery D) (block : ResultBlock D) : Prop where
  sourceAmount : block.sourceAmount = delivery.convertResponse.sourceAmount
  convertedAmount : block.convertedAmount = delivery.convertResponse.convertedAmount
  exchangeRate : block.exchangeRate = delivery.convertResponse.exchangeRate
  rateDate : block.rateDate = delivery.convertResponse.rateDate
  points : block.points = delivery.historyResponse.points
  sourceLabel : block.sourceLabel = delivery.submission.sourceCurrency
  targetLabel : block.targetLabel = delivery.submission.targetCurrency
  chartSourceCurrency : block.chartSourceCurrency = delivery.submission.sourceCurrency
  chartTargetCurrency : block.chartTargetCurrency = delivery.submission.targetCurrency
  chartData : block.chartData = {
    label := delivery.submission.sourceCurrency ++ str "/" ++ delivery.submission.targetCurrency
    labels := delivery.historyResponse.points.map HistoryPoint.date
    data := delivery.historyResponse.points.map HistoryPoint.rate }

namespace Conversion

/-- The last branch of the template: neither the spinner nor the error text.  An
empty error message counts as none. -/
def rendered (c : Conversion D) : Bool :=
  !c.loadingLookups && c.lookupError.all List.isEmpty

def resultBlock (c : Conversion D) : Option (ResultBlock D) :=
  match c.rendered, c.result with
  | true, some r =>
      some ⟨r.sourceAmount, c.form.sourceCurrency, r.convertedAmount, c.form.targetCurrency,
        r.exchangeRate, r.rateDate, c.historyPoints, c.form.sourceCurrency,
        c.form.targetCurrency⟩
  | _, _ => none

/-- `Validators.required`, and `min` and `max` once the constraints are there. -/
def amountInvalid [Double D] (c : Conversion D) : Bool :=
  match c.form.amount, c.constraints with
  | none, _ => true
  | some _, none => false
  | some amount, some bounds => amount < bounds.minAmount || bounds.maxAmount < amount

/-- `Validators.required`, and those of a date picker's input. -/
def dateInvalid (c : Conversion D) : Option Date → Bool
  | some (.day d) =>
      (match c.minDate with
        | some (.day bound) => d.before bound
        | _ => false) ||
      match c.maxDate with
        | some (.day bound) => bound.before d
        | _ => false
  | _ => true

def invalid [Double D] (c : Conversion D) : Bool :=
  c.form.sourceCurrency.isEmpty || c.form.targetCurrency.isEmpty || c.amountInvalid ||
    c.dateInvalid c.form.startDate || c.dateInvalid c.form.endDate

/-- What `submit` reads from the form; `none` where it returns early. -/
def submission [Double D] (c : Conversion D) : Option (Submission D) :=
  if c.invalid then none
  else
    match c.form.amount, c.form.startDate, c.form.endDate with
    | some amount, some startDate, some endDate =>
        some ⟨c.form.sourceCurrency, c.form.targetCurrency, amount, toDateInput startDate,
          toDateInput endDate⟩
    | _, _, _ => none

def init [Double D] : Conversion D where
  currencies := []
  constraints := none
  loadingLookups := true
  lookupError := none
  submitting := false
  result := none
  historyPoints := []
  minDate := none
  maxDate := none
  form := ⟨[], [], some 100.0, none, none⟩
  notification := none

def lookupsLoaded (currencies : List CurrencyInfo) (constraints : ConstraintsResponse D)
    (c : Conversion D) : Conversion D :=
  { c with
    currencies := currencies
    constraints := some constraints
    minDate := some (fromDateInput constraints.minDate)
    maxDate := some (fromDateInput constraints.maxDate)
    form := { c.form with
      startDate := some (fromDateInput constraints.minDate)
      endDate := some (fromDateInput constraints.maxDate) }
    loadingLookups := false }

def lookupsFailed (err : ClientError) (c : Conversion D) : Conversion D :=
  { c with lookupError := some (toUserMessage err), loadingLookups := false }

def submitted (c : Conversion D) : Conversion D :=
  { c with submitting := true, result := none, historyPoints := [] }

def succeeded (convertResponse : ConvertResponse D) (historyResponse : HistoryResponse D)
    (c : Conversion D) : Conversion D :=
  { c with
    result := some convertResponse
    historyPoints := historyResponse.points
    submitting := false }

def failed (err : ClientError) (c : Conversion D) : Conversion D :=
  { c with notification := some (toUserMessage err), submitting := false }

end Conversion

/-! ## Its events -/

inductive Edit (D : Type)
  | sourceCurrency (code : Str)
  | targetCurrency (code : Str)
  | amount (value : Option D)
  | startDate (value : Option Date)
  | endDate (value : Option Date)

def Edit.apply (form : Form D) : Edit D → Form D
  | .sourceCurrency code => { form with sourceCurrency := code }
  | .targetCurrency code => { form with targetCurrency := code }
  | .amount value => { form with amount := value }
  | .startDate value => { form with startDate := value }
  | .endDate value => { form with endDate := value }

inductive Event (D : Type)
  | lookupsLoaded (currencies : List CurrencyInfo) (constraints : ConstraintsResponse D)
  | lookupsFailed (err : ClientError)
  | edit (change : Edit D)
  | submit
  | succeed (convertResponse : ConvertResponse D) (historyResponse : HistoryResponse D)
  | fail (err : ClientError)

def Event.isSubmit : Event D → Bool
  | .submit => true
  | _ => false

def Event.isSucceed : Event D → Bool
  | .succeed _ _ => true
  | _ => false

/-- The component with the calls of `submit` in flight.  What the last pair of calls brought,
and for which submission, is kept beside what the component makes of it, for the proofs
alone. -/
structure Session (D : Type) extends Conversion D where
  pending : Option (Submission D)
  delivered : Option (Delivery D)

namespace Session

def init [Double D] : Session D := ⟨Conversion.init, none, none⟩

/-- One event; `none` where it cannot occur.  The form is there once the lookups are,
and its button is disabled while `submitting`. -/
def step [Double D] (s : Session D) : Event D → Option (Session D)
  | .lookupsLoaded currencies constraints =>
      if s.loadingLookups then
        some { s with toConversion := s.toConversion.lookupsLoaded currencies constraints }
      else none
  | .lookupsFailed err =>
      if s.loadingLookups then
        some { s with toConversion := s.toConversion.lookupsFailed err }
      else none
  | .edit change =>
      if s.rendered then some { s with form := change.apply s.form } else none
  | .submit =>
      if s.rendered && !s.submitting then
        match s.submission with
        | none => some s
        | some submission => some ⟨s.toConversion.submitted, some submission, none⟩
      else none
  | .succeed convertResponse historyResponse =>
      match s.pending with
      | none => none
      | some submission =>
          some ⟨s.toConversion.succeeded convertResponse historyResponse, none,
            some ⟨submission, convertResponse, historyResponse⟩⟩
  | .fail err =>
      match s.pending with
      | none => none
      | some _ => some { s with toConversion := s.toConversion.failed err, pending := none }

end Session

/-! ## What was requested -/

section

variable [Double D]

/-- The latest submit of the events sent the submission, and it has been waited for since. -/
def SubmittedIn (events : List (Event D)) (submission : Submission D) : Prop :=
  ∃ past edits s, events = past ++ .submit :: edits ∧
    EventRun.run Session.step Session.init past = some s ∧ s.submission = some submission ∧
      ∀ e ∈ edits, ∃ change, e = .edit change

/-- The latest pair of responses in the events, and the submission that waited for it. -/
def DeliveredIn (events : List (Event D)) (delivery : Delivery D) : Prop :=
  ∃ past rest, events =
      past ++ .succeed delivery.convertResponse delivery.historyResponse :: rest ∧
    SubmittedIn past delivery.submission ∧ ∀ e ∈ rest, e.isSucceed = false

/-- What the result block shows after the events, amounts and points and labels, is what was
delivered for one submission. -/
def Session.MatchesRequest (events : List (Event D)) (s : Session D) : Prop :=
  ∀ block, s.resultBlock = some block → ∃ delivery, DeliveredIn events delivery ∧
    delivery.Shown block

end

end CurrencyConverter
