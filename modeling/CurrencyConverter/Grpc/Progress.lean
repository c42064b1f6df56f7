import CurrencyConverter.Grpc.Behaviour
import CurrencyConverter.Library.ActionCost

/-!
# Requests come to an end

What a request costs at most, whatever is charged for each kind of action: two visits of
the currency list, a reading of the clock and a visit of its own cache.  No request waits
for another one, so it responds after as many turns as it has actions and one more.
-/

namespace CurrencyConverter

open AtomicProgram Prog

variable {D : Type}

inductive ActionKind
  | cacheGet (c : CacheId)
  | cachePut (c : CacheId)
  | call (c : CacheId)
  | systemClock
  deriving DecidableEq

def Action.kind : Action D → ActionKind
  | .cacheGet c _ => .cacheGet c
  | .cachePut c _ _ => .cachePut c
  | .call (c := c) _ => .call c
  | .systemClock => .systemClock

section Bounds

variable (price : ActionKind → ℕ)

/-- A lookup that misses, the call of the provider and the `put` of its answer. -/
def visit (c : CacheId) : ℕ := price (.cacheGet c) + (price (.call c) + price (.cachePut c))

/-- Both codes are looked up in the currency list before a request asks for its own
query. -/
def visitsOf (c : CacheId) : ℕ :=
  visit price .currencies + (visit price .currencies + (price .systemClock + visit price c))

def Request.most : Request D → ℕ
  | .listCurrencies => visit price .currencies
  | .convert _ => visitsOf price .latestRate
  | .getHistory _ => visitsOf price .history
  | .getConstraints => price .systemClock

abbrev costOf (a : Action D) : ℕ := price a.kind

end Bounds

variable {price : ActionKind → ℕ}

theorem atMost_call {c : CacheId} (q : Query c) :
    AtMost (costOf (D := D) price) (price (.call c)) (Service.call q).run := by
  have hanswer : AtMost (costOf (D := D) price) (price (.call c) + 0) (Service.call q).run := by
    rw [Service.call]
    apply (atMost_perform (R := Reply) (Action.call q)).run_bind
    intro answer
    cases answer with
    | ok v => trivial
    | error ex => trivial
  exact hanswer

theorem atMost_getOrFetch {c : CacheId} (q : Query c) {fetch : Service D (Stored D c)} {n : ℕ}
    (hfetch : AtMost (costOf price) n fetch.run) :
    AtMost (costOf price) (price (.cacheGet c) + (n + price (.cachePut c)))
      (Service.getOrFetch q fetch).run := by
  rw [Service.getOrFetch]
  apply (atMost_perform (R := Reply) (Action.cacheGet c q.cacheKey)).run_bind
  intro cached
  cases cached with
  | some v => trivial
  | none =>
      apply hfetch.run_bind
      intro fetched
      exact ⟨Nat.le_refl _, fun _ ↦ trivial⟩

theorem atMost_listCurrencies :
    AtMost (costOf (D := D) price) (visit price .currencies)
      CurrencyCatalogService.listCurrencies.run := by
  apply atMost_getOrFetch
  apply (atMost_call .listCurrencies).run_bind (n := 0)
  intro list
  split
  · trivial
  · trivial

theorem atMost_checkKnown (role code : Str) :
    AtMost (costOf (D := D) price) (visit price .currencies) (checkKnown role code).run := by
  have hknown : AtMost (costOf (D := D) price) (visit price .currencies)
      (CurrencyCatalogService.isKnownCurrency code).run := by
    rw [CurrencyCatalogService.isKnownCurrency]
    apply atMost_listCurrencies.run_bind (n := 0)
    exact fun _ ↦ trivial
  rw [checkKnown]
  apply hknown.run_bind (n := 0)
  intro known
  split
  · trivial
  · trivial

variable [Double D]

theorem atMost_getConstraints :
    AtMost (costOf (D := D) price) (price .systemClock) ConstraintsService.getConstraints.run :=
  ⟨Nat.le_refl _, fun _ ↦ trivial⟩

theorem atMost_convert (source target : Str) (amount : D) :
    AtMost (costOf price) (visitsOf price .latestRate)
      (ConversionService.convert source target amount).run := by
  rw [ConversionService.convert]
  apply (atMost_checkKnown _ _).run_bind
  intro _
  apply (atMost_checkKnown _ _).run_bind
  intro _
  split
  · trivial
  · apply atMost_getConstraints.run_bind
    intro constraints
    split
    · trivial
    · apply (atMost_getOrFetch _ (atMost_call _)).run_bind (n := 0)
      intro rate
      trivial

theorem atMost_getHistory (source target : Str) (range : DateRange) :
    AtMost (costOf (D := D) price) (visitsOf price .history)
      (HistoryService.getHistory source target range).run := by
  rw [HistoryService.getHistory]
  apply (atMost_checkKnown _ _).run_bind
  intro _
  apply (atMost_checkKnown _ _).run_bind
  intro _
  apply atMost_getConstraints.run_bind
  intro constraints
  split
  · trivial
  · exact atMost_getOrFetch _ (atMost_call _)

omit [Double D] in
theorem atMost_handle {work : Service D (Response D)} {n : ℕ}
    (hwork : AtMost (costOf price) n work.run) :
    AtMost (costOf price) n (CurrencyServiceImpl.handle work) := by
  rw [CurrencyServiceImpl.handle]
  apply hwork.bind (n := 0)
  intro out
  cases out with
  | ok response => trivial
  | error ex => trivial

theorem atMost_serve (price : ActionKind → ℕ) (req : Request D) :
    AtMost (costOf price) (req.most price) (CurrencyServiceImpl.serve req) := by
  cases req with
  | listCurrencies =>
      apply atMost_handle
      apply atMost_listCurrencies.run_bind (n := 0)
      exact fun _ ↦ trivial
  | convert r =>
      apply atMost_handle
      apply (atMost_convert _ _ _).run_bind (n := 0)
      exact fun _ ↦ trivial
  | getHistory r =>
      apply atMost_handle
      cases DateRange.construct r.startDate r.endDate with
      | error ex => trivial
      | ok range =>
          apply (atMost_getHistory _ _ range).run_bind (n := 0)
          exact fun _ ↦ trivial
  | getConstraints =>
      apply atMost_handle
      apply atMost_getConstraints.run_bind (n := 0)
      exact fun _ ↦ trivial

/-- The thread of the next request. -/
def Limits.nextThread (limits : Limits) (earlier : Schedule D) : ℕ :=
  (limits.run earlier).threads.length

/-- A request never costs more than `most`, and once it had more turns than it has actions
it has responded, whatever the other requests and the sweepers do. -/
theorem requests_come_to_an_end (limits : Limits) (later earlier : Schedule D) (req : Request D)
    (price : ActionKind → ℕ) :
    spent (costOf price) (project (limits.nextThread earlier)
        (limits.run (later ++ .start req :: earlier)).log) ≤ req.most price ∧
      (req.most (fun _ ↦ 1) < later.countP (Machine.schedules (limits.nextThread earlier)) →
        ∃ out, .responded (limits.nextThread earlier) out ∈
          (limits.run (later ++ .start req :: earlier)).log) := by
  constructor
  · have hlegal := Machine.legal_run (Server.machine D) (limits.empty D)
      (later ++ .start req :: earlier)
    have hstarted : requestOf (limits.nextThread earlier)
        (limits.run (.start req :: earlier)).log = some req := by
      simp [Limits.nextThread, Limits.run, Machine.run, Machine.step, requestOf]
    have hrequest := hlegal.requestOf_of_suffix
      (Machine.log_suffix_run (Server.machine D) (limits.empty D) later (.start req :: earlier))
      hstarted
    exact Machine.spent_le hlegal hrequest (atMost_serve price req)
  · exact Machine.responds_within (Server.machine D) (limits.empty D) earlier
      (atMost_serve (fun _ ↦ 1) req)

/-- Ten actions, and three of them are calls of the provider. -/
example : (usdToEur.most fun _ ↦ 1) = 10 ∧
    (usdToEur.most fun kind ↦ if kind matches .call _ then 1 else 0) = 3 := by decide

/-- Eleven turns of the first request around one of the second. -/
def elevenTurns : Schedule ℚ :=
  let t := tickAt 0 (online (9 / 10) (str "2024-03-01"))
  List.replicate 4 (.act 0 t) ++ .act 1 t :: .start usdToEur :: List.replicate 7 (.act 0 t)

theorem requests_come_to_an_end_beside_another :
    spent (costOf fun _ ↦ 1)
        (project 0 (Limits.builtIn.run (elevenTurns ++ [.start usdToEur])).log) ≤ 10 ∧
      ∃ out, .responded 0 out ∈ (Limits.builtIn.run (elevenTurns ++ [.start usdToEur])).log := by
  obtain ⟨hcost, hresponds⟩ :=
    requests_come_to_an_end .builtIn elevenTurns [] usdToEur (fun _ ↦ 1)
  have hturns : (usdToEur.most fun _ ↦ 1) < elevenTurns.countP (Machine.schedules 0) := by
    decide
  exact ⟨hcost, hresponds hturns⟩

end CurrencyConverter
