import CurrencyConverter.Grpc.Progress
import CurrencyConverter.Main.Lifetimes

/-!
# The end of the server process

From the request to terminate on, `main` waits for the requests that are in flight and then
for one sweeper after the other.  The sweepers of the other caches may go round their loops
as often as they like meanwhile, but nobody waits for them: what is waited for has a bounded
number of steps left, and one of them can always be taken.
-/

namespace CurrencyConverter

open AtomicProgram

theorem Request.most_le {D : Type} (req : Request D) : req.most (fun _ ↦ 1) ≤ 10 := by
  cases req with
  | listCurrencies => exact Nat.le_of_ble_eq_true rfl
  | convert r => exact Nat.le_refl 10
  | getHistory r => exact Nat.le_refl 10
  | getConstraints => exact Nat.le_of_ble_eq_true rfl

namespace MainThread

/-- `main` has been told to terminate, or could not start the server. -/
def Ending : MainThread → Bool
  | .shutdown | .destroys _ | .returned => true
  | _ => false

/-- The steps of `main` outside of the destructors. -/
def left : MainThread → ℕ
  | .shutdown => 1
  | _ => 0

end MainThread

def Sweeping.begun (t : Sweeping) : Bool := t.destructor ≠ .store

/-- The steps that a cache has left from the begin of its destructor on. -/
def Sweeping.left (t : Sweeping) : ℕ :=
  if t.destructor = .store then 8 else t.sweeper.left + t.destructor.left

theorem Sweeping.left_le (t : Sweeping) : t.left ≤ 8 := by
  unfold left
  split
  · exact Nat.le_refl 8
  · have hsweeper := t.sweeper.left_le
    have hdestructor := Destructor.left_le ‹_›
    omega

namespace CurrencyServerApp

variable {D : Type}

def cacheLeft : Option Sweeping → ℕ
  | none => 0
  | some t => t.left

def cachesLeft (sweeping : CacheId → Option Sweeping) : ℕ :=
  cacheLeft (sweeping .currencies) + cacheLeft (sweeping .latestRate) +
    cacheLeft (sweeping .history)

theorem cachesLeft_le (sweeping : CacheId → Option Sweeping) : cachesLeft sweeping ≤ 24 := by
  have hle : ∀ o, cacheLeft o ≤ 8 := by
    intro o
    cases o with
    | none => exact Nat.zero_le 8
    | some t => exact t.left_le
  have hcurrencies := hle (sweeping .currencies)
  have hlatestRate := hle (sweeping .latestRate)
  have hhistory := hle (sweeping .history)
  unfold cachesLeft
  omega

theorem cachesLeft_update {sweeping : CacheId → Option Sweeping} {c : CacheId}
    {o : Option Sweeping} {k : ℕ} (h : k + cacheLeft o ≤ cacheLeft (sweeping c)) :
    k + cachesLeft (Function.update sweeping c o) ≤ cachesLeft sweeping := by
  cases c with
  | _ =>
      simp only [cachesLeft, Function.update_self, ne_eq, reduceCtorEq, not_false_eq_true,
        Function.update_of_ne]
      omega

/-- All steps but the start of a request and those of a sweeper whose cache is not yet being
destroyed. -/
def counts (p : CurrencyServerApp D) : Step D → Bool
  | .request _ => false
  | .cache c e => e.ofDestructor || (p.sweeping c).any Sweeping.begun
  | _ => true

def Step.isRequest : Step D → Bool
  | .request _ => true
  | _ => false

variable [Double D] {p p' : CurrencyServerApp D}

omit [Double D] in
/-- What is counted of the steps of a cache's threads uses up what the cache has left. -/
theorem left_of_step {c : CacheId} {e : SweptCache.Step ℤ}
    {s s' : SweptCache Str (Stored D c) ℤ} (h : s.Orderly) (hstep : s.step e = some s') :
    (if e.ofDestructor || (Sweeping.of s).begun then 1 else 0) + (Sweeping.of s').left ≤
      (Sweeping.of s).left := by
  by_cases hbegun : s.destructor = .store
  · have hleft : (Sweeping.of s).left = 8 := if_pos hbegun
    have hwaits : (Sweeping.of s).begun = false := by
      simp [Sweeping.begun, Sweeping.of, hbegun]
    rcases SweptCache.step_moves h.mutex hstep with ⟨rfl, -, rfl⟩ | ⟨-, hnotify, -⟩ |
      ⟨-, hjoin, -⟩ | ⟨hmoves, -, hdestructor, -⟩
    · have hsweeper := s.sweeper.left_le
      have hleft' : (Sweeping.of { s with stopping := true, destructor := .notify }).left =
          s.sweeper.left + 2 := rfl
      simp only [SweptCache.Step.ofDestructor, Bool.true_or, if_true, hleft, hleft']
      omega
    · cases hbegun.symm.trans hnotify
    · cases hbegun.symm.trans hjoin
    · have hle := (Sweeping.of s').left_le
      simpa [hmoves.ofDestructor_eq_false, hwaits, hleft] using hle
  · obtain ⟨hlt, hbegun'⟩ := SweptCache.left_step h hbegun hstep
    have hleft : (Sweeping.of s).left = s.left := if_neg hbegun
    have hleft' : (Sweeping.of s').left = s'.left := if_neg hbegun'
    rw [hleft, hleft']
    split
    · omega
    · omega

/-- At most `n` counted steps are left. -/
structure Ending (n : ℕ) (p : CurrencyServerApp D) : Prop where
  inScope : p.InScope
  ending : p.main.Ending = true
  left : ∃ m, Machine.AllTurnsLeft p.pool.threads m ∧
    m + (p.main.left + cachesLeft p.sweeping) ≤ n

theorem Ending.step {n : ℕ} {e : Step D} (h : Ending n p) (hstep : p.step e = some p') :
    ∃ n', Ending n' p' ∧
      (if counts p e then 1 else 0) + n' ≤ n + if e.isRequest then 11 else 0 := by
  have hinScope' := h.inScope.step hstep
  have hending := h.ending
  obtain ⟨m, hturns, hle⟩ := h.left
  cases step_moves hstep with
  | constructed hmain => simp [hmain, MainThread.Ending] at hending
  | thrown hmain => simp [hmain, MainThread.Ending] at hending
  | listens hmain => simp [hmain, MainThread.Ending] at hending
  | failed hmain => simp [hmain, MainThread.Ending] at hending
  | terminated hmain => simp [hmain, MainThread.Ending] at hending
  | request req hmain =>
      have hserve := (atMost_serve (fun _ ↦ 1) req).mono req.most_le
      refine ⟨n + 11, ⟨hinScope', hending, m + 11, hturns.append req hserve, ?_⟩, ?_⟩
      · simp only
        omega
      · simp [counts, Step.isRequest]
  | act w hthread =>
      obtain ⟨m', hlt, hturns'⟩ := hturns.act (Server.machine D) hthread w
      refine ⟨n - 1, ⟨hinScope', hending, m', hturns', ?_⟩, ?_⟩
      · simp only
        omega
      · simp only [counts, Step.isRequest, if_true, Bool.false_eq_true, if_false]
        omega
  | shutDown hmain hquiet =>
      have hone : p.main.left = 1 := congrArg MainThread.left hmain
      refine ⟨n - 1, ⟨hinScope', rfl, m, hturns, ?_⟩, ?_⟩
      · simp only [MainThread.left]
        omega
      · simp only [counts, Step.isRequest, if_true, Bool.false_eq_true, if_false]
        omega
  | @cache c e s s' hmain hswept hs =>
      have hsweeping := sweeping_of_swept hswept
      have hmain' : (p.main.afterStep c e).Ending = true ∧
          (p.main.afterStep c e).left ≤ p.main.left := by
        cases e with
        | join =>
            cases c with
            | _ => exact ⟨rfl, Nat.zero_le _⟩
        | _ => exact ⟨hending, Nat.le_refl _⟩
      have hcounts : counts p (.cache c e) = (e.ofDestructor || (Sweeping.of s).begun) := by
        simp [counts, hsweeping]
      have huses : (if counts p (.cache c e) then 1 else 0) +
          cachesLeft (Function.update p.sweeping c (some (.of s'))) ≤ cachesLeft p.sweeping := by
        apply cachesLeft_update
        rw [hcounts, hsweeping]
        exact left_of_step (h.inScope.orderly_swept hswept) hs
      refine ⟨m + ((p.main.afterStep c e).left +
        cachesLeft (Function.update p.sweeping c (some (.of s')))), ⟨hinScope', hmain'.1, m, ?_,
          Nat.le_refl _⟩, ?_⟩
      · rwa [tend_threads]
      · simp only [Step.isRequest, Bool.false_eq_true, if_false]
        omega

/-- A step of a cache's threads is one of the process once it is the cache's turn. -/
theorem cache_possible {c : CacheId} {e : SweptCache.Step ℤ} {s : SweptCache Str (Stored D c) ℤ}
    (hmain : p.main = .destroys c) (hswept : p.swept c = some s) (hs : s.step e ≠ none) :
    p.step (.cache c e) ≠ none := by
  obtain ⟨s', hs'⟩ := Option.ne_none_iff_exists'.mp hs
  simp [step, hmain, hswept, hs']

/-- What `main` waits for can go on. -/
theorem exists_counted (h : p.InScope) (hending : p.main.Ending = true)
    (hreturned : p.main ≠ .returned) : ∃ e, counts p e = true ∧ p.step e ≠ none := by
  cases hmain : p.main with
  | shutdown =>
      by_cases hquiet : Machine.unanswered p.pool.threads = 0
      · exact ⟨.shutdownReturns, rfl, by simp [step, hmain, hquiet]⟩
      · rw [Machine.unanswered_eq_zero] at hquiet
        push Not at hquiet
        obtain ⟨⟨req, o⟩, hmem, ho⟩ := hquiet
        obtain ⟨prog, rfl⟩ := Option.ne_none_iff_exists'.mp ho
        obtain ⟨i, hi⟩ := List.getElem?_of_mem hmem
        let w : Tick D := ⟨0, firstOfMarch, fun _ _ ↦ .error (.unavailable [])⟩
        exact ⟨.act i w, rfl, by simp [step, hi]⟩
  | destroys c =>
      obtain ⟨t, ht, hdone⟩ := scope_destroys.mp (hmain ▸ h.scope c)
      have hswept : p.swept c = some (t.on (p.pool.shared c).cache) := by
        rw [swept, ht, Option.map_some]
      by_cases hstore : t.destructor = .store
      · refine ⟨.cache c .store, rfl, cache_possible hmain hswept ?_⟩
        simp [SweptCache.step, Sweeping.on, hstore]
      · have hgoes : ¬ ∀ e, (t.on (p.pool.shared c).cache).step e = none :=
          fun hstuck ↦ hdone ((SweptCache.stuck_iff (h.orderly_swept hswept) hstore).mp hstuck)
        push Not at hgoes
        obtain ⟨e, he⟩ := hgoes
        refine ⟨.cache c e, ?_, cache_possible hmain hswept he⟩
        simp [counts, ht, Sweeping.begun, hstore]
  | returned => exact absurd hmain hreturned
  | _ => simp [hmain, MainThread.Ending] at hending

theorem stuck_of_returned (h : p.InScope) (hreturned : p.main = .returned) (e : Step D) :
    p.step e = none := by
  by_contra hpossible
  obtain ⟨p', hp'⟩ := Option.ne_none_iff_exists'.mp hpossible
  cases step_moves hp' with
  | request req hmain => simp [hreturned] at hmain
  | act w hthread =>
      have hup := h.up hthread
      simp [hreturned] at hup
  | @cache c e s s' hmain hswept hs =>
      obtain ⟨t, ht, hdone⟩ := h.stands hpossible
      have hscope := h.scope c
      rw [hreturned] at hscope
      exact hdone (hscope t ht)
  | constructed hmain => cases hreturned.symm.trans hmain
  | thrown hmain => cases hreturned.symm.trans hmain
  | listens hmain => cases hreturned.symm.trans hmain
  | failed hmain => cases hreturned.symm.trans hmain
  | terminated hmain => cases hreturned.symm.trans hmain
  | shutDown hmain hquiet => cases hreturned.symm.trans hmain

/-- Once the process is told to terminate, or could not start, at most 25 counted steps
happen, and eleven more for each request in flight and for each that is still let in.  Until
`main` has returned some counted step can be taken, and then no step at all. -/
theorem process_comes_to_an_end (limits : Limits) (earlier later : List (Step D))
    (hearlier : EventRun.run step (launch limits D) earlier = some p)
    (hending : p.main.Ending = true) (hlater : EventRun.run step p later = some p') :
    EventRun.counted counts step p later ≤
        25 + 11 * (Machine.unanswered p.pool.threads + later.countP Step.isRequest) ∧
      (p'.main ≠ .returned → ∃ e, counts p' e = true ∧ p'.step e ≠ none) ∧
      (p'.main = .returned → ∀ e, p'.step e = none) := by
  have hstart : Ending (11 * Machine.unanswered p.pool.threads + 25) p := by
    obtain ⟨schedule, hpool⟩ := reached_of_run hearlier
    have hconsistent := Machine.consistent_run (Server.machine D) (limits.empty D) schedule
    have hturns := hconsistent.allTurnsLeft
      fun req ↦ (atMost_serve (fun _ ↦ 1) req).mono req.most_le
    rw [show (Server.machine D).run (limits.empty D) schedule = p.pool from hpool] at hturns
    refine ⟨inScope_of_run hearlier, hending, _, hturns, ?_⟩
    have hmain : p.main.left ≤ 1 := by
      cases p.main with
      | _ => simp [MainThread.left]
    have hcaches := cachesLeft_le p.sweeping
    omega
  have huses : ∀ n (q : CurrencyServerApp D) (e : Step D) q', Ending n q → q.step e = some q' →
      ∃ n', Ending n' q' ∧
        (if counts q e then 1 else 0) + n' ≤ n + if e.isRequest then 11 else 0 :=
    fun _ _ _ _ h hstep ↦ h.step hstep
  obtain ⟨n', hend, hcount⟩ := EventRun.counted_le huses hstart hlater
  refine ⟨by omega, exists_counted hend.inScope hend.ending, ?_⟩
  exact fun hreturned ↦ stuck_of_returned hend.inScope hreturned

/-- One conversion is in flight when the process is told to terminate. -/
theorem process_comes_to_an_end_of_oneLife :
    ∃ p p' : CurrencyServerApp ℚ, EventRun.counted counts step p (oneLife.drop 12) ≤ 36 ∧
      EventRun.run step p (oneLife.drop 12) = some p' ∧ ∀ e, p'.step e = none := by
  have hmap : (EventRun.run step (launch .builtIn ℚ) (oneLife.take 12)).map
      (fun p ↦ (p.main.Ending, Machine.unanswered p.pool.threads,
        (EventRun.run step p (oneLife.drop 12)).map main)) = some (true, 1, some .returned) := by
    with_unfolding_all rfl
  obtain ⟨p, hearlier, hp⟩ := Option.map_eq_some_iff.mp hmap
  simp only [Prod.mk.injEq] at hp
  obtain ⟨hending, hone, hend⟩ := hp
  obtain ⟨p', hlater, hreturned⟩ := Option.map_eq_some_iff.mp hend
  obtain ⟨hcount, -, hstuck⟩ := process_comes_to_an_end .builtIn _ _ hearlier hending hlater
  rw [hone] at hcount
  exact ⟨p, p', hcount, hlater, hstuck hreturned⟩

end CurrencyServerApp

end CurrencyConverter
