import CurrencyConverter.Application.Services
import CurrencyConverter.Cache.Runs
import CurrencyConverter.Config.AppConfig

/-!
# The gRPC service and the server around it

`CurrencyServiceImpl` maps messages to service calls and exceptions to status
codes.  The server is the machine whose threads run these handlers on the three
caches, one atomic action at a time, with the sweepers in the background.
-/

namespace CurrencyConverter

open AtomicProgram

/-! ## Messages -/

structure ConvertRequest (D : Type) where
  sourceCurrency : Str
  targetCurrency : Str
  amount : D

structure ConvertResponse (D : Type) where
  sourceAmount : D
  convertedAmount : D
  exchangeRate : D
  rateDate : Str
  deriving DecidableEq

structure HistoryRequest where
  sourceCurrency : Str
  targetCurrency : Str
  startDate : Str
  endDate : Str

structure HistoryPoint (D : Type) where
  date : Str
  rate : D
  deriving DecidableEq

structure HistoryResponse (D : Type) where
  sourceCurrency : Str
  targetCurrency : Str
  points : List (HistoryPoint D)
  deriving DecidableEq

structure CurrencyInfo where
  code : Str
  fullName : Str
  deriving DecidableEq

structure ConstraintsResponse (D : Type) where
  minAmount : D
  maxAmount : D
  minDate : Str
  maxDate : Str
  deriving DecidableEq

inductive Request (D : Type)
  | listCurrencies
  | convert (request : ConvertRequest D)
  | getHistory (request : HistoryRequest)
  | getConstraints

inductive Response (D : Type)
  | listCurrencies (currencies : List CurrencyInfo)
  | convert (response : ConvertResponse D)
  | getHistory (response : HistoryResponse D)
  | getConstraints (response : ConstraintsResponse D)
  deriving DecidableEq

inductive StatusCode
  | invalidArgument
  | notFound
  | unavailable
  | internal
  deriving DecidableEq

structure Status where
  code : StatusCode
  message : Str
  deriving DecidableEq

/-- What a client receives: a status other than `OK`, or a message. -/
abbrev Outcome (D : Type) := Except Status (Response D)

namespace CurrencyServiceImpl

variable {D : Type}

def toStatus : Exception → Status
  | .invalidArgument what => ⟨.invalidArgument, what⟩
  | .currencyNotFound what => ⟨.notFound, what⟩
  | .externalApiUnavailable what => ⟨.unavailable, what⟩
  | .externalApiUnexpectedResponse _ => ⟨.internal, str "internal server error"⟩
  | .other _ => ⟨.internal, str "internal server error"⟩

def handle (work : Service D (Response D)) : Prog (Action D) Reply (Outcome D) :=
  work.run >>= fun
    | .ok response => pure (.ok response)
    | .error ex => pure (.error (toStatus ex))

def ListCurrencies : Prog (Action D) Reply (Outcome D) :=
  handle do
    let currencies ← CurrencyCatalogService.listCurrencies
    return .listCurrencies (currencies.map fun currency ↦ ⟨currency.code, currency.fullName⟩)

variable [Double D]

def Convert (request : ConvertRequest D) : Prog (Action D) Reply (Outcome D) :=
  handle do
    let result ← ConversionService.convert request.sourceCurrency request.targetCurrency
      request.amount
    return .convert {
      sourceAmount := result.sourceAmount
      convertedAmount := result.convertedAmount
      exchangeRate := result.exchangeRate
      rateDate := result.rateDate }

def GetHistory (request : HistoryRequest) : Prog (Action D) Reply (Outcome D) :=
  handle do
    let range ← ExceptT.mk (.ret (DateRange.construct request.startDate request.endDate))
    let points ← HistoryService.getHistory request.sourceCurrency request.targetCurrency range
    return .getHistory {
      sourceCurrency := request.sourceCurrency
      targetCurrency := request.targetCurrency
      points := points.map fun point ↦ ⟨point.date, point.rate⟩ }

def GetConstraints : Prog (Action D) Reply (Outcome D) :=
  handle do
    let constraints ← ConstraintsService.getConstraints
    return .getConstraints {
      minAmount := constraints.minAmount
      maxAmount := constraints.maxAmount
      minDate := constraints.minDate
      maxDate := constraints.maxDate }

def serve : Request D → Prog (Action D) Reply (Outcome D)
  | .listCurrencies => ListCurrencies
  | .convert request => Convert request
  | .getHistory request => GetHistory request
  | .getConstraints => GetConstraints

end CurrencyServiceImpl

/-! ## The server -/

/-- The limits of the caches as `main` constructs them. -/
structure Limits where
  latestRateMaxAge : ℤ
  latestRateMaxElements : ℕ
  historyMaxAge : ℤ
  historyMaxElements : ℕ
  latestRate_pos : 0 < latestRateMaxElements
  history_pos : 0 < historyMaxElements

namespace Limits

def maxAge (limits : Limits) : CacheId → ℤ
  | .currencies => 24 * 60
  | .latestRate => limits.latestRateMaxAge
  | .history => limits.historyMaxAge

def maxElements (limits : Limits) : CacheId → ℕ
  | .currencies => 8
  | .latestRate => limits.latestRateMaxElements
  | .history => limits.historyMaxElements

theorem maxElements_pos (limits : Limits) (c : CacheId) : 0 < limits.maxElements c := by
  cases c with
  | currencies => exact Nat.succ_pos 7
  | latestRate => exact limits.latestRate_pos
  | history => exact limits.history_pos

/-- The limits a configuration gives, when both constructors accept them. -/
def ofConfig (config : LayeredConfiguration)
    (hlatest : 0 < (AppConfig.latestRateCacheMaxElements config).toNat)
    (hhistory : 0 < (AppConfig.historyCacheMaxElements config).toNat) : Limits where
  latestRateMaxAge := AppConfig.latestRateCacheMaxAge config
  latestRateMaxElements := (AppConfig.latestRateCacheMaxElements config).toNat
  historyMaxAge := AppConfig.historyCacheMaxAge config
  historyMaxElements := (AppConfig.historyCacheMaxElements config).toNat
  latestRate_pos := hlatest
  history_pos := hhistory

/-- What `main` uses without a configuration. -/
def builtIn : Limits := ⟨15, 500, 1440, 5000, by decide, by decide⟩

theorem ofConfig_none : ofConfig (fun _ ↦ none) (by decide) (by decide) = builtIn := rfl

end Limits

variable {D : Type}

abbrev Cache (D : Type) (c : CacheId) := CoherentCache Str (Stored D c) ℤ

abbrev Caches (D : Type) := (c : CacheId) → Cache D c

def Limits.empty (limits : Limits) (D : Type) : Caches D :=
  fun c ↦ CoherentCache.empty (limits.maxAge c) (limits.maxElements c) (limits.maxElements_pos c)

abbrev Upstream (D : Type) := (c : CacheId) → Query c → Except ProviderException (Stored D c)

/-- What the world brings to one action: the clocks, and the provider's answer
if the action asks for one. -/
structure Tick (D : Type) where
  now : ℤ
  today : CalendarDate
  upstream : Upstream D

namespace Server

def answer (w : Tick D) (caches : Caches D) : (a : Action D) → Reply a × Caches D
  | .cacheGet c key =>
      let done := (caches c).step (.get w.now key)
      (done.1, Function.update caches c done.2)
  | .cachePut c key value =>
      ((), Function.update caches c ((caches c).step (.put w.now key value)).2)
  | .call query => (w.upstream _ query, caches)
  | .systemClock => (w.today, caches)

/-- A sweep of one cache, with the clock readings it takes. -/
abbrev Sweep := CacheId × (ℕ → ℤ)

def sweep (b : Sweep) (caches : Caches D) : Caches D :=
  Function.update caches b.1 ((caches b.1).step (.sweepExpired b.2)).2

variable [Double D]

def machine (D : Type) [Double D] :
    Machine (Action D) Reply (Outcome D) (Caches D) (Request D) (Tick D) Sweep where
  code := CurrencyServiceImpl.serve
  answer := answer
  tend := sweep

end Server

abbrev ServerEvent (D : Type) :=
  Event (Action D) Reply (Outcome D) (Request D) (Tick D) Server.Sweep

abbrev Log (D : Type) := List (ServerEvent D)

/-- A run of the server from its start: the scheduler's choices, the latest
first. -/
abbrev Schedule (D : Type) := List (Choice (Request D) (Tick D) Server.Sweep)

def Limits.run [Double D] (limits : Limits) (schedule : Schedule D) :
    Pool (Action D) Reply (Outcome D) (Caches D) (Request D) (Tick D) Server.Sweep :=
  (Server.machine D).run (limits.empty D) schedule

/-! ## The calls on one cache -/

def opOf (c : CacheId) : ServerEvent D → Option (TimeAndSizeBoundedCache.Op Str (Stored D c) ℤ)
  | .acted _ w (.cacheGet c' key) _ => if c' = c then some (.get w.now key) else none
  | .acted _ w (.cachePut c' key value) _ =>
      if h : c' = c then some (.put w.now key (h ▸ value)) else none
  | .tended (c', clock) => if c' = c then some (.sweepExpired clock) else none
  | _ => none

/-- The calls of a log on cache `c`, the latest first. -/
def cacheOps (c : CacheId) (log : Log D) : List (TimeAndSizeBoundedCache.Op Str (Stored D c) ℤ) :=
  log.filterMap (opOf c)

/-- An event that is a call `op` of cache `c'`, and of no other, leaves each cache as
its own calls do. -/
theorem update_eq_after {s₀ caches : Caches D} {log : Log D} {e : ServerEvent D} {c c' : CacheId}
    {op : TimeAndSizeBoundedCache.Op Str (Stored D c') ℤ} (hown : opOf c' e = some op)
    (hother : c' ≠ c → opOf c e = none) (hlog : caches c = (s₀ c).after (cacheOps c log)) :
    Function.update caches c' ((caches c').step op).2 c =
      (s₀ c).after (cacheOps c (e :: log)) := by
  by_cases hc : c' = c
  · subst hc
    rw [Function.update_self, hlog, cacheOps, cacheOps, List.filterMap_cons_some hown,
      CoherentCache.after_cons]
  · rw [Function.update_of_ne (Ne.symm hc), hlog, cacheOps, cacheOps,
      List.filterMap_cons_none (hother hc)]

/-- Each cache is what its own calls left. -/
theorem sharedAfter_eq_after [Double D] (s₀ : Caches D) (log : Log D) (c : CacheId) :
    (Server.machine D).sharedAfter s₀ log c = (s₀ c).after (cacheOps c log) := by
  induction log with
  | nil => rfl
  | cons e l ih =>
      cases e with
      | started i q => exact ih
      | responded i out => exact ih
      | acted i w a r =>
          cases a with
          | cacheGet c' key =>
              have hown : opOf c' (.acted i w (.cacheGet c' key) r : ServerEvent D) =
                  some (.get w.now key) := if_pos rfl
              exact update_eq_after hown (fun hc ↦ if_neg hc) ih
          | cachePut c' key value =>
              have hown : opOf c' (.acted i w (.cachePut c' key value) r : ServerEvent D) =
                  some (.put w.now key value) := dif_pos rfl
              exact update_eq_after hown (fun hc ↦ dif_neg hc) ih
          | call query => exact ih
          | systemClock => exact ih
      | tended b =>
          obtain ⟨c', clock⟩ := b
          have hown : opOf c' (.tended (c', clock) : ServerEvent D) =
              some (.sweepExpired clock) := if_pos rfl
          exact update_eq_after hown (fun hc ↦ if_neg hc) ih

theorem shared_run [Double D] (limits : Limits) (schedule : Schedule D) (c : CacheId) :
    (limits.run schedule).shared c =
      (limits.empty D c).after (cacheOps c (limits.run schedule).log) := by
  rw [← sharedAfter_eq_after]
  exact congrFun (Machine.consistent_run (Server.machine D) (limits.empty D) schedule).shared c

theorem maxAge_shared [Double D] (limits : Limits) (schedule : Schedule D) (c : CacheId) :
    ((limits.run schedule).shared c).cache.maxAge = limits.maxAge c := by
  rw [shared_run, CoherentCache.after_maxAge]
  rfl

/-! ## A small server to run -/

def euroAndDollar : List Currency :=
  [⟨str "EUR", str "Euro"⟩, ⟨str "USD", str "United States Dollar"⟩]

def online (rate : ℚ) (date : Str) : Upstream ℚ
  | _, .listCurrencies => .ok euroAndDollar
  | _, .latestRate source target => .ok ⟨source, target, rate, date⟩
  | _, .history source target range => .ok [⟨source, target, rate, range.startDate⟩]

def offline : Upstream ℚ := fun _ _ ↦
  .error (.unavailable (str "could not reach frankfurter.dev: Timeout"))

def firstOfMarch : CalendarDate := ⟨2024, 3, 1, by decide, by decide, by decide⟩

def tickAt (now : ℤ) (upstream : Upstream ℚ) : Tick ℚ :=
  ⟨now * 60000000000, firstOfMarch, upstream⟩

/-- 10 dollars to euros, the first code in lower case. -/
def usdToEur : Request ℚ := .convert ⟨str "usd", str "EUR", 10⟩

/-- `m` steps of the first request, then `n` steps of the second. -/
def inTurn (n : ℕ) (t : Tick ℚ) (second : Request ℚ) (m : ℕ) (t' : Tick ℚ)
    (first : Request ℚ) : Schedule ℚ :=
  List.replicate n (.act 1 t) ++ .start second :: (List.replicate m (.act 0 t') ++ [.start first])

theorem tick_of_inTurn {n m : ℕ} {t t' : Tick ℚ} {second first : Request ℚ} {i : ℕ} {w : Tick ℚ}
    (h : .act i w ∈ inTurn n t second m t' first) : w = t ∨ w = t' := by
  rcases List.mem_append.mp h with h | h
  · cases (List.mem_replicate.mp h).2
    exact Or.inl rfl
  · rcases List.mem_cons.mp h with h | h
    · cases h
    · rcases List.mem_append.mp h with h | h
      · cases (List.mem_replicate.mp h).2
        exact Or.inr rfl
      · cases List.mem_singleton.mp h

end CurrencyConverter
