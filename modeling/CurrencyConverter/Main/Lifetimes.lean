import CurrencyConverter.Cache.SweepTimes
import CurrencyConverter.Grpc.CurrencyServiceImpl
import CurrencyConverter.Library.ActionCost

/-!
# The life of the server process

`CurrencyServerApp::main` constructs the three caches, each with its sweeper thread, serves
until it is told to terminate and destroys what it constructed in the reverse order.  The
threads of the requests and of the sweepers run beside it, and nothing but this order
keeps them from a cache that is not there.
-/

namespace CurrencyConverter

open AtomicProgram

/-- What a cache shares with its sweeper thread besides its entries. -/
structure Sweeping where
  stopping : Bool
  sweeperMutex : Bool
  sweeper : SweepLoop
  destructor : Destructor
  deriving DecidableEq

namespace Sweeping

def init : Sweeping := ⟨false, false, .start, .store⟩

/-- Together with the entries, the members of the cache. -/
def on {K V T : Type} (t : Sweeping) (cache : TimeAndSizeBoundedCache K V T) :
    SweptCache K V T :=
  ⟨cache, t.stopping, t.sweeperMutex, t.sweeper, t.destructor⟩

def of {K V T : Type} (s : SweptCache K V T) : Sweeping :=
  ⟨s.stopping, s.sweeperMutex, s.sweeper, s.destructor⟩

@[simp] theorem on_of {K V T : Type} (s : SweptCache K V T) : (of s).on s.cache = s := rfl

end Sweeping

namespace SweptCache

/-- The steps of the thread that destroys the cache. -/
def Step.ofDestructor {T : Type} : Step T → Bool
  | .store | .notifyAll | .join => true
  | _ => false

theorem Moves.ofDestructor_eq_false {T : Type} {e : Step T} {b : Bool} {l l' : SweepLoop}
    (h : Moves e b l l') : e.ofDestructor = false := by
  cases h with
  | _ => rfl

/-- Whether a cache is orderly does not depend on its entries. -/
theorem Orderly.on {K V T : Type} {s : SweptCache K V T} (h : Orderly s)
    (cache : TimeAndSizeBoundedCache K V T) : Orderly ((Sweeping.of s).on cache) :=
  ⟨h.mutex, h.stops, h.joined⟩

end SweptCache

/-- Where `CurrencyServerApp::main` is. -/
inductive MainThread
  | constructs (c : CacheId)
  | buildAndStart
  | serving
  /-- In `server->Shutdown()`. -/
  | shutdown
  | destroys (c : CacheId)
  | returned
  deriving DecidableEq

/-- The caches in the order of their declarations. -/
def CacheId.rank : CacheId → ℕ
  | .currencies => 0
  | .latestRate => 1
  | .history => 2

namespace MainThread

def afterConstructing : CacheId → MainThread
  | .currencies => .constructs .latestRate
  | .latestRate => .constructs .history
  | .history => .buildAndStart

/-- The scope of a cache has ended. -/
def afterDestroying : CacheId → MainThread
  | .history => .destroys .latestRate
  | .latestRate => .destroys .currencies
  | .currencies => .returned

def afterStep (main : MainThread) (c : CacheId) : SweptCache.Step ℤ → MainThread
  | .join => .afterDestroying c
  | _ => main

theorem afterStep_of_sweeper {main : MainThread} {c : CacheId} {e : SweptCache.Step ℤ}
    (h : e.ofDestructor = false) : main.afterStep c e = main := by
  cases e with
  | join => cases h
  | _ => rfl

end MainThread

/-- The process: where `main` is, the server with its requests and the entries of its
caches, and the sweepers of the caches whose constructors have returned. -/
structure CurrencyServerApp (D : Type) where
  main : MainThread
  pool : Pool (Action D) Reply (Outcome D) (Caches D) (Request D) (Tick D) Server.Sweep
  sweeping : CacheId → Option Sweeping

namespace CurrencyServerApp

variable {D : Type}

inductive Step (D : Type)
  /-- A constructor throws if `max_elements` is 0 or its thread cannot be started. -/
  | construct (returns : Bool)
  | buildAndStart (listening : Bool)
  | request (req : Request D)
  | act (i : ℕ) (w : Tick D)
  | terminationRequest
  /-- `server->Shutdown()` returns, and `serverThread` is joined. -/
  | shutdownReturns
  /-- The sweeper of a cache, or `main` in its destructor. -/
  | cache (c : CacheId) (e : SweptCache.Step ℤ)

def launch (limits : Limits) (D : Type) : CurrencyServerApp D :=
  ⟨.constructs .currencies, ⟨limits.empty D, [], []⟩, fun _ ↦ none⟩

/-- The members of a cache, from its construction on. -/
def swept (p : CurrencyServerApp D) (c : CacheId) : Option (SweptCache Str (Stored D c) ℤ) :=
  (p.sweeping c).map (·.on (p.pool.shared c).cache)

variable [Double D]

/-- What a step of its threads does to the entries of a cache. -/
def tend (pool : Pool (Action D) Reply (Outcome D) (Caches D) (Request D) (Tick D) Server.Sweep)
    (c : CacheId) : SweptCache.Step ℤ →
      Pool (Action D) Reply (Outcome D) (Caches D) (Request D) (Tick D) Server.Sweep
  | .sweepExpired clock => (Server.machine D).step pool (.tend (c, clock))
  | _ => pool

/-- One step of a thread, `none` where it cannot be taken.  A request does not ask whether a
cache is there, nor does a sweeper ask whether its own still is.  When a request may start and
when `Shutdown` returns is what gRPC documents of the two: no handler is called before
`BuildAndStart`, some may still be while `Shutdown` waits, and it returns once all have
returned. -/
def step (p : CurrencyServerApp D) : Step D → Option (CurrencyServerApp D)
  | .construct returns =>
      match p.main with
      | .constructs c =>
          some (if returns then
            { p with
              main := .afterConstructing c
              sweeping := Function.update p.sweeping c (some .init) }
          else { p with main := .afterDestroying c })
      | _ => none
  | .buildAndStart listening =>
      if p.main = .buildAndStart then
        some { p with main := if listening then .serving else .destroys .history }
      else none
  | .request req =>
      if p.main = .serving ∨ p.main = .shutdown then
        some { p with pool := (Server.machine D).step p.pool (.start req) }
      else none
  | .act i w =>
      match p.pool.threads[i]? with
      | some (_, some _) => some { p with pool := (Server.machine D).step p.pool (.act i w) }
      | _ => none
  | .terminationRequest => if p.main = .serving then some { p with main := .shutdown } else none
  | .shutdownReturns =>
      if p.main = .shutdown ∧ Machine.unanswered p.pool.threads = 0 then
        some { p with main := .destroys .history }
      else none
  | .cache c e =>
      if e.ofDestructor = true ∧ p.main ≠ .destroys c then none
      else
        match (p.swept c).bind (·.step e) with
        | none => none
        | some s =>
            some {
              main := p.main.afterStep c e
              pool := tend p.pool c e
              sweeping := Function.update p.sweeping c (some (.of s)) }

/-! ## The steps -/

variable {p p' : CurrencyServerApp D} {e : Step D}

/-- What each step does. -/
inductive Moves (p : CurrencyServerApp D) : Step D → CurrencyServerApp D → Prop
  | constructed {c : CacheId} (hmain : p.main = .constructs c) :
      Moves p (.construct true) { p with
        main := .afterConstructing c
        sweeping := Function.update p.sweeping c (some .init) }
  | thrown {c : CacheId} (hmain : p.main = .constructs c) :
      Moves p (.construct false) { p with main := .afterDestroying c }
  | listens (hmain : p.main = .buildAndStart) :
      Moves p (.buildAndStart true) { p with main := .serving }
  | failed (hmain : p.main = .buildAndStart) :
      Moves p (.buildAndStart false) { p with main := .destroys .history }
  | request (req : Request D) (hmain : p.main = .serving ∨ p.main = .shutdown) :
      Moves p (.request req) { p with pool := (Server.machine D).step p.pool (.start req) }
  | act {i : ℕ} {req : Request D} {prog : Prog (Action D) Reply (Outcome D)} (w : Tick D)
      (hthread : p.pool.threads[i]? = some (req, some prog)) :
      Moves p (.act i w) { p with pool := (Server.machine D).step p.pool (.act i w) }
  | terminated (hmain : p.main = .serving) :
      Moves p .terminationRequest { p with main := .shutdown }
  | shutDown (hmain : p.main = .shutdown) (hquiet : Machine.unanswered p.pool.threads = 0) :
      Moves p .shutdownReturns { p with main := .destroys .history }
  | cache {c : CacheId} {e : SweptCache.Step ℤ} {s s' : SweptCache Str (Stored D c) ℤ}
      (hmain : e.ofDestructor = true → p.main = .destroys c) (hswept : p.swept c = some s)
      (hstep : s.step e = some s') :
      Moves p (.cache c e) {
        main := p.main.afterStep c e
        pool := tend p.pool c e
        sweeping := Function.update p.sweeping c (some (.of s')) }

theorem step_moves (hstep : p.step e = some p') : Moves p e p' := by
  cases e with
  | construct returns =>
      simp only [step] at hstep
      split at hstep
      case h_1 c hmain =>
        cases hstep
        cases returns with
        | true => exact .constructed hmain
        | false => exact .thrown hmain
      case h_2 => cases hstep
  | buildAndStart listening =>
      simp only [step] at hstep
      split at hstep
      case isTrue hmain =>
        cases hstep
        cases listening with
        | true => exact .listens hmain
        | false => exact .failed hmain
      case isFalse => cases hstep
  | request req =>
      simp only [step] at hstep
      split at hstep
      case isTrue hmain =>
        cases hstep
        exact .request req hmain
      case isFalse => cases hstep
  | act i w =>
      simp only [step] at hstep
      split at hstep
      case h_1 req prog hthread =>
        cases hstep
        exact .act w hthread
      case h_2 => cases hstep
  | terminationRequest =>
      simp only [step] at hstep
      split at hstep
      case isTrue hmain =>
        cases hstep
        exact .terminated hmain
      case isFalse => cases hstep
  | shutdownReturns =>
      simp only [step] at hstep
      split at hstep
      case isTrue h =>
        cases hstep
        exact .shutDown h.1 h.2
      case isFalse => cases hstep
  | cache c e =>
      simp only [step] at hstep
      split at hstep
      case isTrue => cases hstep
      case isFalse hmain =>
        split at hstep
        case h_1 => cases hstep
        case h_2 s' hs' =>
          cases hstep
          obtain ⟨s, hswept, hs⟩ := Option.bind_eq_some_iff.mp hs'
          exact .cache (fun he ↦ not_not.mp fun hne ↦ hmain ⟨he, hne⟩) hswept hs

/-! ## The server in the process -/

/-- Some run of the server leads to where it is in the process. -/
def Reached (limits : Limits) (p : CurrencyServerApp D) : Prop :=
  ∃ schedule, limits.run schedule = p.pool

theorem Reached.step {limits : Limits} (h : Reached limits p) (hstep : p.step e = some p') :
    Reached limits p' := by
  obtain ⟨schedule, hpool⟩ := h
  have hchoice : ∀ c, ∃ schedule', limits.run schedule' = (Server.machine D).step p.pool c :=
    fun c ↦ ⟨c :: schedule, congrArg ((Server.machine D).step · c) hpool⟩
  cases step_moves hstep with
  | request req hmain => exact hchoice (.start req)
  | @act i _ _ w hthread => exact hchoice (.act i w)
  | @cache c e s s' hmain hswept hstep =>
      cases e with
      | sweepExpired clock => exact hchoice (.tend (c, clock))
      | _ => exact ⟨schedule, hpool⟩
  | _ => exact ⟨schedule, hpool⟩

/-- The process adds no run to those of the server. -/
theorem reached_of_run {limits : Limits} {events : List (Step D)}
    (hrun : EventRun.run step (launch limits D) events = some p) : Reached limits p := by
  have hlaunch : Reached limits (launch limits D) := ⟨[], rfl⟩
  exact EventRun.run_inv (fun _ _ _ h hstep ↦ h.step hstep) hlaunch hrun

omit [Double D] in
theorem sweeping_of_swept {c : CacheId} {s : SweptCache Str (Stored D c) ℤ}
    (h : p.swept c = some s) : p.sweeping c = some (.of s) := by
  obtain ⟨t, ht, rfl⟩ := Option.map_eq_some_iff.mp h
  exact ht

/-- A step of a cache's threads takes the cache in the process where it takes the cache alone. -/
theorem swept_of_moves {c : CacheId} {e : SweptCache.Step ℤ} (h : Moves p (.cache c e) p') :
    ∃ s s', p.swept c = some s ∧ s.step e = some s' ∧ p'.swept c = some s' := by
  cases h with
  | @cache _ _ s s' hmain hswept hstep =>
      refine ⟨s, s', hswept, hstep, ?_⟩
      have hcache : s.cache = (p.pool.shared c).cache := by
        obtain ⟨t, -, rfl⟩ := Option.map_eq_some_iff.mp hswept
        rfl
      have hcache' : ((tend p.pool c e).shared c).cache = s'.cache := by
        cases e with
        | sweepExpired clock =>
            rw [TimedCache.swept_of_step hstep, hcache]
            have hexec : (p.pool.shared c).cache.exec (.sweepExpired clock) =
                some (none, (p.pool.shared c).cache.sweepExpired clock) := rfl
            simp [tend, Machine.step, Server.machine, Server.sweep,
              ((p.pool.shared c).step_of_exec hexec).2]
        | _ => exact (TimedCache.cache_of_step hstep (by simp)).symm ▸ hcache.symm
      simp only [swept, Function.update_self, Option.map_some, hcache', Sweeping.on_of]

/-! ## Scopes -/

/-- Its constructor has returned and its destructor has not begun. -/
def Lives (o : Option Sweeping) : Prop := ∃ t, o = some t ∧ t.destructor = .store

/-- Its destructor has not come to its end. -/
def Stands (o : Option Sweeping) : Prop := ∃ t, o = some t ∧ t.destructor ≠ .done

def Gone (o : Option Sweeping) : Prop := ∀ t, o = some t → t.destructor = .done

/-- What of a cache there is where `main` is. -/
def Scope (o : Option Sweeping) (c : CacheId) : MainThread → Prop
  | .constructs d => if c.rank < d.rank then Lives o else o = none
  | .destroys d => if c.rank < d.rank then Lives o else if c = d then Stands o else Gone o
  | .returned => Gone o
  | _ => Lives o

/-- No request runs out of the scope of the caches, and each is orderly. -/
structure InScope (p : CurrencyServerApp D) : Prop where
  scope : ∀ c, Scope (p.sweeping c) c p.main
  orderly : ∀ c t, p.sweeping c = some t →
    ∀ entries : TimeAndSizeBoundedCache Str (Stored D c) ℤ, (t.on entries).Orderly
  quiet : p.main ≠ .serving → p.main ≠ .shutdown → Machine.unanswered p.pool.threads = 0

@[simp] theorem lives_some {t : Sweeping} : Lives (some t) ↔ t.destructor = .store := by
  simp [Lives]

@[simp] theorem stands_some {t : Sweeping} : Stands (some t) ↔ t.destructor ≠ .done := by
  simp [Stands]

@[simp] theorem gone_some {t : Sweeping} : Gone (some t) ↔ t.destructor = .done := by
  simp [Gone]

@[simp] theorem gone_none : Gone none := by
  intro t ht
  cases ht

theorem Lives.stands {o : Option Sweeping} (h : Lives o) : Stands o := by
  obtain ⟨t, ht, hstore⟩ := h
  exact ⟨t, ht, by simp [hstore]⟩

section Scope

variable {o : Option Sweeping} {c c' : CacheId}

/-- Once it has constructed all of them `main` leaves the caches alone until the end. -/
theorem Scope.lives {main : MainThread} (h : Scope o c main)
    (hmain : main = .buildAndStart ∨ main = .serving ∨ main = .shutdown) : Lives o := by
  rcases hmain with rfl | rfl | rfl
  · exact h
  · exact h
  · exact h

theorem scope_constructed (h : Scope o c' (.constructs c)) (hne : c' ≠ c) :
    Scope o c' (.afterConstructing c) := by
  cases c with
  | _ =>
      cases c' with
      | _ => simp_all [Scope, CacheId.rank, MainThread.afterConstructing]

theorem scope_init (c : CacheId) : Scope (some .init) c (.afterConstructing c) := by
  cases c with
  | _ => simp [Scope, CacheId.rank, MainThread.afterConstructing, Sweeping.init]

/-- Where a constructor throws, what was constructed before it is destroyed. -/
theorem scope_thrown (h : Scope o c' (.constructs c)) : Scope o c' (.afterDestroying c) := by
  have hgone : o = none → Gone o := by
    rintro rfl
    exact gone_none
  cases c with
  | _ =>
      cases c' with
      | _ => simp_all [Scope, CacheId.rank, MainThread.afterDestroying, Lives.stands]

theorem scope_destroyed (h : Scope o c' (.destroys c)) (hne : c' ≠ c) :
    Scope o c' (.afterDestroying c) := by
  cases c with
  | _ =>
      cases c' with
      | _ => simp_all [Scope, CacheId.rank, MainThread.afterDestroying, Lives.stands]

theorem scope_gone (h : Gone o) (c : CacheId) : Scope o c (.afterDestroying c) := by
  cases c with
  | _ => simpa [Scope, CacheId.rank, MainThread.afterDestroying] using h

theorem scope_unwound (h : Lives o) (c : CacheId) : Scope o c (.destroys .history) := by
  cases c with
  | _ => simp [Scope, CacheId.rank, h, h.stands]

theorem scope_destroys : Scope o c (.destroys c) ↔ Stands o := by
  simp [Scope]

/-- A cache is what its scope says as long as its destructor makes no step. -/
theorem Scope.of_destructor {main : MainThread} {t t' : Sweeping} (h : Scope (some t) c main)
    (hsame : t'.destructor = t.destructor) : Scope (some t') c main := by
  cases main with
  | constructs d =>
      simp only [Scope, lives_some, reduceCtorEq] at h ⊢
      rwa [hsame]
  | _ =>
      simp only [Scope, lives_some, stands_some, gone_some] at h ⊢
      rwa [hsame]

end Scope

omit [Double D] in
/-- What a step of a cache's own threads makes of its scope. -/
theorem scope_step {c : CacheId} {e : SweptCache.Step ℤ} {s s' : SweptCache Str (Stored D c) ℤ}
    {main : MainThread} (h : Scope (some (.of s)) c main) (horderly : s.Orderly)
    (hmain : e.ofDestructor = true → main = .destroys c) (hstep : s.step e = some s') :
    Scope (some (.of s')) c (main.afterStep c e) := by
  rcases SweptCache.step_moves horderly.mutex hstep with ⟨rfl, -, rfl⟩ | ⟨rfl, -, rfl⟩ |
    ⟨rfl, -, -, rfl⟩ | ⟨hmoves, -, hdestructor, -⟩
  · rw [hmain rfl]
    exact scope_destroys.mpr (by simp [Sweeping.of])
  · rw [hmain rfl]
    exact scope_destroys.mpr (by simp [Sweeping.of])
  · exact scope_gone (by simp [Sweeping.of]) c
  · rw [MainThread.afterStep_of_sweeper hmoves.ofDestructor_eq_false]
    exact h.of_destructor hdestructor

omit [Double D] in
theorem inScope_launch (limits : Limits) : InScope (launch limits D) where
  scope c := by simp [Scope, launch, CacheId.rank]
  orderly c t ht := by cases ht
  quiet _ _ := rfl

omit [Double D] in
theorem InScope.orderly_swept (h : InScope p) {c : CacheId} {s : SweptCache Str (Stored D c) ℤ}
    (hs : p.swept c = some s) : s.Orderly :=
  h.orderly c _ (sweeping_of_swept hs) s.cache

@[simp] theorem tend_threads
    (pool : Pool (Action D) Reply (Outcome D) (Caches D) (Request D) (Tick D) Server.Sweep)
    (c : CacheId) (e : SweptCache.Step ℤ) : (tend pool c e).threads = pool.threads := by
  cases e with
  | _ => rfl

omit [Double D] in
/-- Where a request runs the server has been built and has not been shut down. -/
theorem InScope.up (h : InScope p) {i : ℕ} {req : Request D}
    {prog : Prog (Action D) Reply (Outcome D)}
    (hthread : p.pool.threads[i]? = some (req, some prog)) :
    p.main = .serving ∨ p.main = .shutdown := by
  by_contra hdown
  have hquiet := h.quiet (fun hmain ↦ hdown (.inl hmain)) (fun hmain ↦ hdown (.inr hmain))
  have hnone := Machine.unanswered_eq_zero.mp hquiet _ (List.mem_of_getElem? hthread)
  cases hnone

omit [Double D] in
/-- One cache is changed, and `main` goes on accordingly. -/
theorem InScope.update (h : InScope p) {c : CacheId} {t : Sweeping} {main : MainThread}
    {pool : Pool (Action D) Reply (Outcome D) (Caches D) (Request D) (Tick D) Server.Sweep}
    (hscope : Scope (some t) c main) (hothers : ∀ c', c' ≠ c → Scope (p.sweeping c') c' main)
    (horderly : ∀ entries : TimeAndSizeBoundedCache Str (Stored D c) ℤ, (t.on entries).Orderly)
    (hquiet : main ≠ .serving → main ≠ .shutdown → Machine.unanswered pool.threads = 0) :
    InScope ⟨main, pool, Function.update p.sweeping c (some t)⟩ := by
  refine ⟨fun c' ↦ ?_, fun c' ↦ ?_, hquiet⟩
  · by_cases hc : c' = c
    · subst hc
      simpa using hscope
    · simpa [hc] using hothers c' hc
  · by_cases hc : c' = c
    · subst hc
      intro t' ht'
      obtain rfl : t = t' := by simpa using ht'
      exact horderly
    · simpa [hc] using h.orderly c'

theorem InScope.step (h : InScope p) (hstep : p.step e = some p') : InScope p' := by
  cases step_moves hstep with
  | @constructed c hmain =>
      refine h.update (scope_init c) (fun c' hc ↦ ?_) SweptCache.orderly_init fun _ _ ↦ ?_
      · exact scope_constructed (hmain ▸ h.scope c') hc
      · exact h.quiet (by simp [hmain]) (by simp [hmain])
  | thrown hmain =>
      exact ⟨fun c' ↦ scope_thrown (hmain ▸ h.scope c'), h.orderly,
        fun _ _ ↦ h.quiet (by simp [hmain]) (by simp [hmain])⟩
  | listens hmain =>
      exact ⟨fun c ↦ (h.scope c).lives (by simp [hmain]), h.orderly,
        fun hserving ↦ absurd rfl hserving⟩
  | failed hmain =>
      exact ⟨fun c ↦ scope_unwound ((h.scope c).lives (by simp [hmain])) c, h.orderly,
        fun _ _ ↦ h.quiet (by simp [hmain]) (by simp [hmain])⟩
  | request req hmain =>
      refine ⟨h.scope, h.orderly, fun hserving hshutdown ↦ ?_⟩
      exact (hmain.elim hserving hshutdown).elim
  | act w hthread =>
      refine ⟨h.scope, h.orderly, fun hserving hshutdown ↦ ?_⟩
      exact ((h.up hthread).elim hserving hshutdown).elim
  | terminated hmain =>
      exact ⟨fun c ↦ (h.scope c).lives (by simp [hmain]), h.orderly,
        fun _ hshutdown ↦ absurd rfl hshutdown⟩
  | shutDown hmain hquiet =>
      exact ⟨fun c ↦ scope_unwound ((h.scope c).lives (by simp [hmain])) c, h.orderly,
        fun _ _ ↦ hquiet⟩
  | @cache c e s s' hmain hswept hs =>
      have horderly := h.orderly_swept hswept
      have hscope := h.scope c
      rw [sweeping_of_swept hswept] at hscope
      refine h.update (scope_step hscope horderly hmain hs) (fun c' hc ↦ ?_) (horderly.step hs).on
        fun hserving hshutdown ↦ ?_
      · cases he : e.ofDestructor with
        | false =>
            rw [MainThread.afterStep_of_sweeper he]
            exact h.scope c'
        | true =>
            cases e with
            | join => exact scope_destroyed (hmain he ▸ h.scope c') hc
            | _ => exact h.scope c'
      · rw [tend_threads]
        cases he : e.ofDestructor with
        | false =>
            rw [MainThread.afterStep_of_sweeper he] at hserving hshutdown
            exact h.quiet hserving hshutdown
        | true => exact h.quiet (by simp [hmain he]) (by simp [hmain he])

theorem inScope_of_run {limits : Limits} {events : List (Step D)}
    (hrun : EventRun.run step (launch limits D) events = some p) : InScope p :=
  EventRun.run_inv (fun _ _ _ h hstep ↦ h.step hstep) (inScope_launch limits) hrun

omit [Double D] in
/-- As long as a cache stands those declared before it are untouched. -/
theorem InScope.reverse (h : InScope p) {c c' : CacheId} (hrank : c.rank < c'.rank)
    (hstands : Stands (p.sweeping c')) : Lives (p.sweeping c) := by
  have hscope := h.scope c
  have hscope' := h.scope c'
  have hgone : ¬ Gone (p.sweeping c') := by
    obtain ⟨t, ht, hdone⟩ := hstands
    exact fun hgone ↦ hdone (hgone t ht)
  cases hmain : p.main with
  | constructs d =>
      rw [hmain, Scope] at hscope hscope'
      have hlt : c'.rank < d.rank := by
        by_contra hge
        rw [if_neg hge] at hscope'
        rw [hscope'] at hgone
        exact hgone gone_none
      rwa [if_pos (hrank.trans hlt)] at hscope
  | destroys d =>
      rw [hmain, Scope] at hscope hscope'
      have hle : c'.rank ≤ d.rank := by
        by_contra hgt
        rw [if_neg (by omega), if_neg (by rintro rfl; omega)] at hscope'
        exact hgone hscope'
      rwa [if_pos (Nat.lt_of_lt_of_le hrank hle)] at hscope
  | returned =>
      rw [hmain] at hscope'
      exact absurd hscope' hgone
  | _ => exact hscope.lives (by simp [hmain])

omit [Double D] in
theorem InScope.joined (h : InScope p) {c : CacheId} {t : Sweeping} (ht : p.sweeping c = some t)
    (hdone : t.destructor = .done) : t.sweeper = .exited :=
  (h.orderly c t ht (p.pool.shared c).cache).joined hdone

/-- Nobody works on a cache that is done. -/
theorem InScope.stands (h : InScope p) {c : CacheId} {e : SweptCache.Step ℤ}
    (hpossible : p.step (.cache c e) ≠ none) : Stands (p.sweeping c) := by
  obtain ⟨p', hp'⟩ := Option.ne_none_iff_exists'.mp hpossible
  obtain ⟨s, s', hswept, hs, -⟩ := swept_of_moves (step_moves hp')
  refine ⟨.of s, sweeping_of_swept hswept, fun hdone ↦ ?_⟩
  have hstuck := (SweptCache.stuck_iff (h.orderly_swept hswept) (by
    rw [show s.destructor = .done from hdone]
    simp)).mpr hdone e
  rw [hs] at hstuck
  cases hstuck

/-- In every run of the process, which is one of the server, a request only runs while all
three caches live, the sweeper of a cache or its destructor while the cache stands, and each
cache goes before those that were declared before it.  Where `main` has returned, every
request has responded and every sweeper has been joined. -/
theorem caches_outlive_their_users (limits : Limits) (events : List (Step D))
    (hrun : EventRun.run step (launch limits D) events = some p) :
    (∃ schedule, limits.run schedule = p.pool) ∧
      (∀ i w, p.step (.act i w) ≠ none → ∀ c, Lives (p.sweeping c)) ∧
      (∀ c e, p.step (.cache c e) ≠ none → Stands (p.sweeping c)) ∧
      (∀ c c' : CacheId, c.rank < c'.rank → Stands (p.sweeping c') → Lives (p.sweeping c)) ∧
      (p.main = .returned →
        (∀ thread ∈ p.pool.threads, thread.2 = none) ∧
        ∀ c t, p.sweeping c = some t → t.destructor = .done ∧ t.sweeper = .exited) := by
  have h := inScope_of_run hrun
  refine ⟨reached_of_run hrun, ?_, fun c e ↦ h.stands, fun c c' ↦ h.reverse, ?_⟩
  · intro i w hpossible c
    obtain ⟨p', hp'⟩ := Option.ne_none_iff_exists'.mp hpossible
    cases step_moves hp' with
    | act w hthread => exact (h.scope c).lives (.inr (h.up hthread))
  · intro hreturned
    refine ⟨Machine.unanswered_eq_zero.mp (h.quiet (by simp [hreturned]) (by simp [hreturned])), ?_⟩
    intro c t ht
    have hgone : Gone (p.sweeping c) := by
      have hscope := h.scope c
      rwa [hreturned] at hscope
    have hdone := hgone t ht
    exact ⟨hdone, h.joined ht hdone⟩

/-- A conversion is half done when the process is told to terminate. -/
def oneLife : List (Step ℚ) :=
  let t := tickAt 0 (online (9 / 10) (str "2024-03-01"))
  [.construct true, .construct true, .cache .currencies .lock, .construct true,
    .buildAndStart true, .request usdToEur, .act 0 t, .act 0 t, .act 0 t, .act 0 t,
    .cache .history .lock, .terminationRequest, .cache .history .test, .act 0 t, .act 0 t,
    .act 0 t, .act 0 t, .act 0 t, .shutdownReturns,
    .cache .history .store, .cache .history .evaluate, .cache .history .notifyAll,
    .cache .history .check, .cache .history .join,
    .cache .latestRate .store, .cache .latestRate .notifyAll, .cache .latestRate .lock,
    .cache .latestRate .test, .cache .latestRate .join,
    .cache .currencies .store, .cache .currencies .test, .cache .currencies .notifyAll,
    .cache .currencies .join]

/-- The conversion runs while all caches live, the first cache still lives while the second is
being destroyed, and in the end nobody is left. -/
theorem caches_outlive_their_users_of_oneLife :
    (∃ p, EventRun.run step (launch .builtIn ℚ) (oneLife.take 12) = some p ∧
      p.main = .shutdown ∧ ∀ c, Lives (p.sweeping c)) ∧
    (∃ p, EventRun.run step (launch .builtIn ℚ) (oneLife.take 25) = some p ∧
      p.main = .destroys .latestRate ∧ Stands (p.sweeping .latestRate) ∧
        Lives (p.sweeping .currencies)) ∧
    ∃ p, EventRun.run step (launch .builtIn ℚ) oneLife = some p ∧
      (∃ schedule, Limits.builtIn.run schedule = p.pool) ∧
      (∀ thread ∈ p.pool.threads, thread.2 = none) ∧
        ∀ c t, p.sweeping c = some t → t.destructor = .done ∧ t.sweeper = .exited := by
  refine ⟨?_, ?_, ?_⟩
  · have hmap : (EventRun.run step (launch .builtIn ℚ) (oneLife.take 12)).map
        (fun p ↦ (p.main, (p.step (.act 0 (tickAt 0 offline))).isSome)) =
          some (.shutdown, true) := by
      with_unfolding_all rfl
    obtain ⟨p, hrun, hp⟩ := Option.map_eq_some_iff.mp hmap
    obtain ⟨hmain, hruns⟩ := Prod.mk.inj hp
    obtain ⟨-, hlive, -⟩ := caches_outlive_their_users .builtIn _ hrun
    exact ⟨p, hrun, hmain, hlive 0 _ (Option.isSome_iff_ne_none.mp hruns)⟩
  · have hmap : (EventRun.run step (launch .builtIn ℚ) (oneLife.take 25)).map
        (fun p ↦ (p.main, (p.step (.cache .latestRate .notifyAll)).isSome)) =
          some (.destroys .latestRate, true) := by
      with_unfolding_all rfl
    obtain ⟨p, hrun, hp⟩ := Option.map_eq_some_iff.mp hmap
    obtain ⟨hmain, hruns⟩ := Prod.mk.inj hp
    obtain ⟨-, -, hstands, hreverse, -⟩ := caches_outlive_their_users .builtIn _ hrun
    have hlatestRate : Stands (p.sweeping .latestRate) := by
      exact hstands .latestRate .notifyAll (Option.isSome_iff_ne_none.mp hruns)
    exact ⟨p, hrun, hmain, hlatestRate, hreverse .currencies .latestRate (by decide) hlatestRate⟩
  · have hmap : (EventRun.run step (launch .builtIn ℚ) oneLife).map main = some .returned := by
      with_unfolding_all rfl
    obtain ⟨p, hrun, hreturned⟩ := Option.map_eq_some_iff.mp hmap
    obtain ⟨hschedule, -, -, -, hend⟩ := caches_outlive_their_users .builtIn oneLife hrun
    exact ⟨p, hrun, hschedule, hend hreturned⟩

end CurrencyServerApp

end CurrencyConverter
