import CurrencyConverter.Cache.Sweeper

/-!
# The sweeper's life

A sweep is what a timeout of `wait_for` leads to, and nothing else does.  Once the
destructor has stored `stopping_`, every step of either thread brings the two closer to
their end, and there is always one to take.
-/

namespace CurrencyConverter

open TimeAndSizeBoundedCache

namespace SweepLoop

/-- Where the sweeper holds `sweeperMutex_`. -/
def locked : SweepLoop → Bool
  | .start | .blocked | .woken _ | .exited => false
  | _ => true

/-- The steps a sweeper has left once `stopping_` is set. -/
def left : SweepLoop → ℕ
  | .exited => 0
  | .test | .check => 1
  | .start | .predicate | .timedOut | .sweep => 2
  | .woken _ => 3
  | .blocked => 4
  | .release => 5

theorem left_le (p : SweepLoop) : p.left ≤ 5 := by
  cases p with
  | _ => simp [left]

end SweepLoop

def Destructor.left : Destructor → ℕ
  | .store => 3
  | .notify => 2
  | .join => 1
  | .done => 0

theorem Destructor.left_le {d : Destructor} (h : d ≠ .store) : d.left ≤ 2 := by
  cases d with
  | store => exact absurd rfl h
  | _ => simp [left]

namespace SweptCache

variable {K V T : Type}

/-- The sweeper's steps, by what it reads of `stopping_`. -/
inductive Moves : Step T → Bool → SweepLoop → SweepLoop → Prop
  | start (b : Bool) : Moves .lock b .start .test
  | returned (b : Bool) : Moves .lock b (.woken true) .timedOut
  | notified (b : Bool) : Moves .lock b (.woken false) .predicate
  | stopAtTest : Moves .test true .test .exited
  | wait : Moves .test false .test .predicate
  | holds : Moves .evaluate true .predicate .check
  | fails : Moves .evaluate false .predicate .release
  | expired (b : Bool) : Moves .evaluate b .timedOut .check
  | block (b : Bool) : Moves .block b .release .blocked
  | wake (b timedOut : Bool) : Moves (.wake timedOut) b .blocked (.woken timedOut)
  | stopAtCheck : Moves .check true .check .exited
  | goOn : Moves .check false .check .sweep
  | swept (b : Bool) (clock : ℕ → T) : Moves (.sweepExpired clock) b .sweep .test

theorem not_moves_of_exited {e : Step T} {b : Bool} {p : SweepLoop} : ¬ Moves e b .exited p := by
  intro h
  cases h

/-- A sweeper that sees `stopping_` set is one step closer to its end. -/
theorem Moves.left_lt {e : Step T} {p p' : SweepLoop} (h : Moves e true p p') :
    p'.left < p.left := by
  cases h with
  | _ => simp [SweepLoop.left]

variable [DecidableEq K] [Ticks T] {s s' : SweptCache K V T} {e : Step T}

/-- The three steps of the destructor, and those of the sweeper. -/
theorem step_moves (hmutex : s.sweeperMutex = s.sweeper.locked) (hstep : s.step e = some s') :
    (e = .store ∧ s.destructor = .store ∧ s' = { s with stopping := true, destructor := .notify }) ∨
    (e = .notifyAll ∧ s.destructor = .notify ∧ s' = { s with
      sweeper := if s.sweeper = .blocked then .woken false else s.sweeper
      destructor := .join }) ∨
    (e = .join ∧ s.destructor = .join ∧ s.sweeper = .exited ∧
      s' = { s with destructor := .done }) ∨
    (Moves e s.stopping s.sweeper s'.sweeper ∧ s'.stopping = s.stopping ∧
      s'.destructor = s.destructor ∧ s'.sweeperMutex = s'.sweeper.locked) := by
  obtain ⟨cache, stopping, mutex, sweeper, destructor⟩ := s
  cases e with
  | store =>
      simp only [step] at hstep
      grind
  | notifyAll =>
      simp only [step] at hstep
      grind
  | join =>
      simp only [step] at hstep
      grind
  | lock =>
      simp only [step] at hstep
      grind [Moves, SweepLoop.locked]
  | test =>
      simp only [step, leave] at hstep
      grind [Moves, SweepLoop.locked]
  | evaluate =>
      simp only [step] at hstep
      grind [Moves, SweepLoop.locked]
  | block =>
      simp only [step] at hstep
      grind [Moves, SweepLoop.locked]
  | wake timedOut =>
      simp only [step] at hstep
      grind [Moves, SweepLoop.locked]
  | check =>
      simp only [step, leave] at hstep
      grind [Moves, SweepLoop.locked]
  | sweepExpired clock =>
      simp only [step] at hstep
      grind [Moves, SweepLoop.locked]

/-- The sweeper alone takes the mutex, `stopping_` is set once the destructor has begun, and
it joins the sweeper at its end. -/
structure Orderly (s : SweptCache K V T) : Prop where
  mutex : s.sweeperMutex = s.sweeper.locked
  stops : StopsOnceBegun s
  joined : s.destructor = .done → s.sweeper = .exited

omit [DecidableEq K] [Ticks T] in
theorem orderly_init (c : TimeAndSizeBoundedCache K V T) : Orderly (init c) where
  mutex := rfl
  stops h := absurd rfl h
  joined h := nomatch h

theorem Orderly.step (h : Orderly s) (hstep : s.step e = some s') : Orderly s' := by
  have hstops := h.stops.step hstep
  rcases step_moves h.mutex hstep with ⟨-, -, rfl⟩ | ⟨-, -, rfl⟩ | ⟨-, -, hexited, rfl⟩ |
    ⟨hmoves, -, hdestructor, hmutex⟩
  · exact ⟨h.mutex, hstops, fun hdone ↦ nomatch hdone⟩
  · refine ⟨?_, hstops, fun hdone ↦ nomatch hdone⟩
    by_cases hb : s.sweeper = .blocked
    · simp [hb, SweepLoop.locked, h.mutex]
    · simp [hb, h.mutex]
  · exact ⟨h.mutex, hstops, fun _ ↦ hexited⟩
  · refine ⟨hmutex, hstops, fun hdone ↦ ?_⟩
    have hexited := h.joined (hdestructor.symm.trans hdone)
    rw [hexited] at hmoves
    exact absurd hmoves not_moves_of_exited

theorem orderly_of_run {c : TimeAndSizeBoundedCache K V T} {events : List (Step T)}
    (hrun : EventRun.run step (init c) events = some s) : Orderly s :=
  EventRun.run_inv (fun _ _ _ h hstep ↦ h.step hstep) (orderly_init c) hrun

/-! ## Sweeps and timeouts -/

def isTimeout : Step T → Bool
  | .wake timedOut => timedOut
  | _ => false

def isSweep : Step T → Bool
  | .sweepExpired _ => true
  | _ => false

/-- The timeouts that no sweep has followed yet; `check` without one sees `stopping_`. -/
def Owes (stopping : Bool) : SweepLoop → ℕ → Prop
  | .woken true, n | .timedOut, n | .sweep, n => n = 1
  | .check, n => n = 1 ∨ n = 0 ∧ stopping = true
  | .exited, n => n ≤ 1
  | _, n => n = 0

omit [DecidableEq K] [Ticks T] in
theorem Owes.moves {b : Bool} {p p' : SweepLoop} {n : ℕ} (hn : Owes b p n) (h : Moves e b p p') :
    ∃ n', Owes b p' n' ∧ n + [e].countP isTimeout = [e].countP isSweep + n' := by
  cases h with
  | wake _ timedOut =>
      cases timedOut with
      | _ => simp_all [Owes, isTimeout, isSweep]
  | stopAtCheck =>
      have hle : n ≤ 1 := by
        rcases hn with rfl | ⟨rfl, -⟩
        · exact Nat.le_refl 1
        · exact Nat.zero_le 1
      exact ⟨n, hle, (Nat.zero_add n).symm⟩
  | _ => simp_all [Owes, isTimeout, isSweep]

/-- The timeouts so far are the sweeps so far and what is owed. -/
def Balanced (events : List (Step T)) (s : SweptCache K V T) : Prop :=
  ∃ n, Owes s.stopping s.sweeper n ∧ events.countP isTimeout = events.countP isSweep + n

omit [DecidableEq K] [Ticks T] in
theorem Owes.stop {b : Bool} {p : SweepLoop} {n : ℕ} (hn : Owes b p n) : Owes true p n := by
  cases p with
  | check => exact hn.imp_right fun h ↦ ⟨h.1, rfl⟩
  | woken timedOut =>
      cases timedOut with
      | _ => exact hn
  | _ => exact hn

theorem Balanced.step {past : List (Step T)} (hs : Orderly s) (h : Balanced past s)
    (hstep : s.step e = some s') : Balanced (past ++ [e]) s' := by
  obtain ⟨n, hn, hcount⟩ := h
  simp only [Balanced, List.countP_append, hcount]
  rcases step_moves hs.mutex hstep with ⟨rfl, -, rfl⟩ | ⟨rfl, -, rfl⟩ | ⟨rfl, -, -, rfl⟩ |
    ⟨hmoves, hstopping, -⟩
  · exact ⟨n, hn.stop, by simp [isTimeout, isSweep]⟩
  · refine ⟨n, ?_, by simp [isTimeout, isSweep]⟩
    by_cases hb : s.sweeper = .blocked
    · rw [hb] at hn
      simp only [hb, if_true]
      exact hn
    · simpa only [hb, if_false] using hn
  · exact ⟨n, hn, by simp [isTimeout, isSweep]⟩
  · obtain ⟨n', hn', hcount'⟩ := hn.moves hmoves
    exact ⟨n', hstopping.symm ▸ hn', by omega⟩

/-- In every run a sweep follows each timeout, and there is no other sweep.  Where one is
missing the sweeper is between its timeout and its sweep, or the end of the loop has cut the
sweep off. -/
theorem one_sweep_for_each_timeout (c : TimeAndSizeBoundedCache K V T) (events : List (Step T))
    (hrun : EventRun.run step (init c) events = some s) :
    events.countP isSweep ≤ events.countP isTimeout ∧
      events.countP isTimeout ≤ events.countP isSweep + 1 ∧
      (s.sweeper = .blocked → events.countP isTimeout = events.countP isSweep) ∧
      (events.countP isTimeout = events.countP isSweep + 1 →
        s.sweeper ∈ [.woken true, .timedOut, .check, .sweep, .exited]) ∧
      (s.sweeper ∈ [.woken true, .timedOut, .sweep] →
        events.countP isTimeout = events.countP isSweep + 1) := by
  have hinit : Balanced [] (init c) := ⟨0, rfl, rfl⟩
  obtain ⟨n, hn, hcount⟩ := EventRun.run_history_inv Balanced hinit
    (fun past mid e s' hmid hbalanced hstep ↦ hbalanced.step (orderly_of_run hmid) hstep) hrun
  have hle : n ≤ 1 := by
    unfold Owes at hn
    split at hn <;> omega
  refine ⟨by omega, by omega, fun hblocked ↦ ?_, fun hmissing ↦ ?_, fun hbetween ↦ ?_⟩
  · rw [hblocked] at hn
    have hzero : n = 0 := hn
    omega
  · have hone : n = 1 := by omega
    subst hone
    cases hp : s.sweeper with
    | woken timedOut =>
        cases timedOut with
        | true => simp
        | false => simp [hp, Owes] at hn
    | _ => simp_all [Owes]
  · have hone : n = 1 := by
      simp only [List.mem_cons, List.not_mem_nil, or_false] at hbetween
      rcases hbetween with hp | hp | hp
      · rwa [hp] at hn
      · rwa [hp] at hn
      · rwa [hp] at hn
    omega

/-- A spurious wake-up, a timeout and, a few steps later, its sweep. -/
def spuriousWake : List (Step ℤ) :=
  [.lock, .test, .evaluate, .block, .wake false, .lock, .evaluate, .block, .wake true, .lock,
    .evaluate, .check, .sweepExpired fun _ ↦ 0]

theorem one_sweep_for_each_timeout_after_a_spurious_wake :
    (∃ s, EventRun.run step (init (⟨1440, 5000, [], fun _ ↦ none, 0⟩ :
        TimeAndSizeBoundedCache ℕ ℕ ℤ)) (spuriousWake.take 10) = some s ∧
      s.sweeper ∈ [.woken true, .timedOut, .check, .sweep, .exited]) ∧
    spuriousWake.countP isSweep ≤ spuriousWake.countP isTimeout ∧
      spuriousWake.countP isTimeout ≤ spuriousWake.countP isSweep + 1 := by
  constructor
  · obtain ⟨s, hrun⟩ : ∃ s, EventRun.run step (init (⟨1440, 5000, [], fun _ ↦ none, 0⟩ :
        TimeAndSizeBoundedCache ℕ ℕ ℤ)) (spuriousWake.take 10) = some s := ⟨_, rfl⟩
    obtain ⟨-, -, -, hmissing, -⟩ := one_sweep_for_each_timeout _ _ hrun
    exact ⟨s, hrun, hmissing rfl⟩
  · obtain ⟨s, hrun⟩ : ∃ s, EventRun.run step (init (⟨1440, 5000, [], fun _ ↦ none, 0⟩ :
        TimeAndSizeBoundedCache ℕ ℕ ℤ)) spuriousWake = some s := ⟨_, rfl⟩
    obtain ⟨hle, hge, -⟩ := one_sweep_for_each_timeout _ _ hrun
    exact ⟨hle, hge⟩

/-! ## The end -/

def left (s : SweptCache K V T) : ℕ := s.sweeper.left + s.destructor.left

theorem left_step (h : Orderly s) (hbegun : s.destructor ≠ .store) (hstep : s.step e = some s') :
    s'.left < s.left ∧ s'.destructor ≠ .store := by
  have hstopping := h.stops hbegun
  rcases step_moves h.mutex hstep with ⟨-, hstore, -⟩ | ⟨-, hnotify, rfl⟩ | ⟨-, hjoin, -, rfl⟩ |
    ⟨hmoves, -, hdestructor, -⟩
  · exact absurd hstore hbegun
  · refine ⟨?_, by simp⟩
    by_cases hb : s.sweeper = .blocked
    · simp [left, hb, hnotify, SweepLoop.left, Destructor.left]
    · simp [left, hb, hnotify, Destructor.left]
  · exact ⟨by simp [left, hjoin, Destructor.left], by simp⟩
  · refine ⟨?_, by rwa [hdestructor]⟩
    rw [hstopping] at hmoves
    rw [left, left, hdestructor]
    exact Nat.add_lt_add_right hmoves.left_lt _

/-- Until the destructor is done some thread can go on, and then none. -/
theorem stuck_iff [Inhabited T] (h : Orderly s) (hbegun : s.destructor ≠ .store) :
    (∀ e, s.step e = none) ↔ s.destructor = .done := by
  have hmutex := h.mutex
  constructor
  · intro hstuck
    by_contra hdone
    have hnotify : s.destructor ≠ .notify := by
      intro hnotify
      simpa [step, hnotify] using hstuck .notifyAll
    have hjoin : s.destructor = .join := by
      cases hd : s.destructor with
      | store => exact absurd hd hbegun
      | notify => exact absurd hd hnotify
      | join => rfl
      | done => exact absurd hd hdone
    cases hp : s.sweeper with
    | exited => simpa [step, hjoin, hp] using hstuck .join
    | start => simpa [step, hp, hmutex, SweepLoop.locked] using hstuck .lock
    | woken timedOut =>
        cases timedOut with
        | _ => simpa [step, hp, hmutex, SweepLoop.locked] using hstuck .lock
    | test => simpa [step, hp] using hstuck .test
    | predicate => simpa [step, hp] using hstuck .evaluate
    | timedOut => simpa [step, hp] using hstuck .evaluate
    | release => simpa [step, hp] using hstuck .block
    | blocked => simpa [step, hp] using hstuck (.wake true)
    | check => simpa [step, hp] using hstuck .check
    | sweep => simpa [step, hp] using hstuck (.sweepExpired default)
  · intro hdone e
    have hexited := h.joined hdone
    cases e with
    | _ => simp [step, hdone, hexited]

/-- No sweep begins once `stopping_` is set. -/
def ahead : SweepLoop → ℕ
  | .sweep => 1
  | _ => 0

omit [DecidableEq K] [Ticks T] in
theorem Moves.ahead_le {p p' : SweepLoop} (h : Moves e true p p') :
    [e].countP isSweep + ahead p' ≤ ahead p := by
  cases h with
  | _ => simp [ahead, isSweep]

/-- What the steps after `store` have left of the bounds. -/
structure Ending (bound : ℕ) (later : List (Step T)) (s : SweptCache K V T) : Prop where
  orderly : Orderly s
  begun : s.destructor ≠ .store
  length_le : later.length + s.left ≤ bound
  sweeps_le : later.countP isSweep + ahead s.sweeper ≤ 1

theorem Ending.step {bound : ℕ} {past : List (Step T)} (h : Ending bound past s)
    (hstep : s.step e = some s') : Ending bound (past ++ [e]) s' := by
  obtain ⟨hlt, hbegun⟩ := left_step h.orderly h.begun hstep
  have hlength := h.length_le
  have hsweeps := h.sweeps_le
  refine ⟨h.orderly.step hstep, hbegun, ?_, ?_⟩
  · simp only [List.length_append, List.length_singleton]
    omega
  · rw [List.countP_append]
    rcases step_moves h.orderly.mutex hstep with ⟨rfl, -, rfl⟩ | ⟨rfl, -, rfl⟩ |
      ⟨rfl, -, -, rfl⟩ | ⟨hmoves, -⟩
    · simpa [isSweep] using hsweeps
    · by_cases hb : s.sweeper = .blocked
      · simp only [hb, ahead] at hsweeps
        simpa [isSweep, hb, ahead] using hsweeps
      · simpa [isSweep, hb] using hsweeps
    · simpa [isSweep] using hsweeps
    · rw [h.orderly.stops h.begun] at hmoves
      have hle := hmoves.ahead_le
      omega

/-- From the destructor's `store` on every run is over after at most seven more steps, one of
them a sweep at most.  A run that cannot go on has joined the sweeper, and only such a one. -/
theorem destructor_comes_to_an_end [Inhabited T] (c : TimeAndSizeBoundedCache K V T)
    (earlier later : List (Step T)) {begun : SweptCache K V T}
    (hearlier : EventRun.run step (init c) earlier = some begun)
    (hbegun : begun.destructor ≠ .store) (hlater : EventRun.run step begun later = some s) :
    later.length ≤ 7 ∧ later.countP isSweep ≤ 1 ∧
      ((∀ e, s.step e = none) ↔ s.destructor = .done) := by
  have horderly := orderly_of_run hearlier
  have hleft : begun.left ≤ 7 :=
    Nat.add_le_add begun.sweeper.left_le (Destructor.left_le hbegun)
  have hstart : Ending 7 [] begun := by
    refine ⟨horderly, hbegun, by simpa using hleft, ?_⟩
    unfold ahead
    split <;> simp
  have hend : Ending 7 later s := EventRun.run_history_inv (Ending 7) hstart
    (fun _ _ _ _ _ hending hstep ↦ hending.step hstep) hlater
  have hlength := hend.length_le
  have hsweeps := hend.sweeps_le
  exact ⟨by omega, by omega, stuck_iff hend.orderly hend.begun⟩

/-- All seven steps, after a notification that the sweeper sleeps through. -/
theorem destructor_comes_to_an_end_after_a_missed_notification :
    ∃ s : SweptCache ℕ ℕ ℤ, s.destructor = .done ∧ ∀ e, s.step e = none := by
  obtain ⟨begun, hearlier, hbegun⟩ : ∃ begun, EventRun.run step
      (init (⟨1440, 5000, [], fun _ ↦ none, 0⟩ : TimeAndSizeBoundedCache ℕ ℕ ℤ))
        [.lock, .test, .evaluate, .store] = some begun ∧ begun.destructor ≠ .store :=
    ⟨_, rfl, by decide⟩
  obtain ⟨s, hlater, hdone⟩ : ∃ s, EventRun.run step begun
      [.notifyAll, .block, .wake true, .lock, .evaluate, .check, .join] = some s ∧
        s.destructor = .done := by
    cases hearlier
    exact ⟨_, rfl, rfl⟩
  obtain ⟨-, -, hstuck⟩ := destructor_comes_to_an_end _ _ _ hearlier hbegun hlater
  exact ⟨s, hdone, hstuck.mpr hdone⟩

end SweptCache

end CurrencyConverter
