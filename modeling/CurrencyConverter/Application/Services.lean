import CurrencyConverter.Domain.Model
import CurrencyConverter.Library.AtomicProgram

/-!
# The application services

A service is a program of atomic actions: a call on one of the three caches, a
call on the exchange rate provider, a reading of the system clock.
-/

namespace CurrencyConverter

open AtomicProgram

inductive CacheId
  | currencies
  | latestRate
  | history
  deriving DecidableEq

variable {D : Type}

abbrev Stored (D : Type) : CacheId → Type
  | .currencies => List Currency
  | .latestRate => ExchangeRate D
  | .history => List (ExchangeRate D)

/-- The calls of `IExchangeRateProvider`, each with the cache for its answers. -/
inductive Query : CacheId → Type
  | listCurrencies : Query .currencies
  | latestRate (sourceCurrency targetCurrency : Str) : Query .latestRate
  | history (sourceCurrency targetCurrency : Str) (range : DateRange) : Query .history

def kCacheKey : Str := str "currencies"

def Query.cacheKey {c : CacheId} : Query c → Str
  | .listCurrencies => kCacheKey
  | .latestRate source target => source ++ str "|" ++ target
  | .history source target range =>
      source ++ str "|" ++ target ++ str "|" ++ range.startDate ++ str "|" ++ range.endDate

/-- What a call of a provider throws.  `InvalidArgumentException` and
`CurrencyNotFoundException` are missing: the services throw these, and the one provider
there is, `FrankfurterClient`, throws neither. -/
inductive ProviderException
  | unavailable (what : Str)
  | unexpectedResponse (what : Str)
  | other (what : Str)
  deriving DecidableEq

def ProviderException.toException : ProviderException → Exception
  | .unavailable what => .externalApiUnavailable what
  | .unexpectedResponse what => .externalApiUnexpectedResponse what
  | .other what => .other what

inductive Action (D : Type)
  | cacheGet (c : CacheId) (key : Str)
  | cachePut (c : CacheId) (key : Str) (value : Stored D c)
  | call {c : CacheId} (query : Query c)
  | systemClock

abbrev Reply : Action D → Type
  | .cacheGet c _ => Option (Stored D c)
  | .cachePut _ _ _ => Unit
  | .call (c := c) _ => Except ProviderException (Stored D c)
  | .systemClock => CalendarDate

abbrev Service (D : Type) := ExceptT Exception (Prog (Action D) Reply)

namespace Service

def cacheGet (c : CacheId) (key : Str) : Service D (Option (Stored D c)) :=
  Prog.perform (R := Reply) (.cacheGet c key)

def cachePut (c : CacheId) (key : Str) (value : Stored D c) : Service D Unit :=
  Prog.perform (R := Reply) (.cachePut c key value)

def systemClock : Service D CalendarDate := Prog.perform (R := Reply) .systemClock

def call {c : CacheId} (query : Query c) : Service D (Stored D c) := do
  let answer : Except ProviderException (Stored D c) ← Prog.perform (R := Reply) (.call query)
  match answer with
  | .ok value => pure value
  | .error ex => throw ex.toException

/-- The cached answer to `query`, else the one `fetch` gives, which is cached
before it is returned. -/
def getOrFetch {c : CacheId} (query : Query c) (fetch : Service D (Stored D c)) :
    Service D (Stored D c) := do
  match ← cacheGet c query.cacheKey with
  | some cached => pure cached
  | none =>
      let fetched ← fetch
      cachePut c query.cacheKey fetched
      pure fetched

end Service

namespace CurrencyCatalogService

def listCurrencies : Service D (List Currency) :=
  Service.getOrFetch .listCurrencies do
    let currencies ← Service.call .listCurrencies
    if currencies.isEmpty then
      throw (.externalApiUnexpectedResponse (str "frankfurter.dev returned an empty currency list"))
    pure currencies

def isKnownCurrency (code : Str) : Service D Bool := do
  let currencies ← listCurrencies
  return currencies.any fun c ↦ c.code = toUpper code

end CurrencyCatalogService

namespace ConstraintsService

variable [Double D]

def kMinAmount : D := 0.01

def kMaxAmount : D := 1000000000.0

def getConstraints : Service D (Constraints D) := do
  let today ← Service.systemClock
  return {
    minAmount := kMinAmount
    maxAmount := kMaxAmount
    minDate := str "1999-01-04"
    maxDate := today.format }

end ConstraintsService

def checkKnown (role code : Str) : Service D Unit := do
  if !(← CurrencyCatalogService.isKnownCurrency code) then
    throw (.currencyNotFound (str "unknown " ++ role ++ str " currency '" ++ code ++ str "'"))

namespace ConversionService

variable [Double D]

def convert (sourceCurrency targetCurrency : Str) (amount : D) :
    Service D (ConversionResult D) := do
  let source := toUpper sourceCurrency
  let target := toUpper targetCurrency
  checkKnown (str "source") source
  checkKnown (str "target") target
  if source = target then
    throw (.invalidArgument (str "source_currency and target_currency must differ"))
  let constraints ← ConstraintsService.getConstraints
  if !Double.isfinite amount ∨ amount < constraints.minAmount ∨ constraints.maxAmount < amount then
    throw (.invalidArgument (str "amount must be between " ++ Double.format constraints.minAmount ++
      str " and " ++ Double.format constraints.maxAmount))
  let query := Query.latestRate source target
  let rate ← Service.getOrFetch query (Service.call query)
  return {
    sourceAmount := amount
    convertedAmount := amount * rate.rate
    exchangeRate := rate.rate
    rateDate := rate.date }

end ConversionService

namespace HistoryService

variable [Double D]

def getHistory (sourceCurrency targetCurrency : Str) (range : DateRange) :
    Service D (List (ExchangeRate D)) := do
  let source := toUpper sourceCurrency
  let target := toUpper targetCurrency
  checkKnown (str "source") source
  checkKnown (str "target") target
  let constraints : Constraints D ← ConstraintsService.getConstraints
  if range.startDate < constraints.minDate ∨ constraints.maxDate < range.endDate then
    throw (.invalidArgument (str "date range must fall within [" ++ constraints.minDate ++
      str ", " ++ constraints.maxDate ++ str "]"))
  let query := Query.history source target range
  Service.getOrFetch query (Service.call query)

end HistoryService

end CurrencyConverter
