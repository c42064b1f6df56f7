import CurrencyConverter.Cache.Coherence
import CurrencyConverter.Library.EventRun

/-!
# Shutting the sweeper down

The sweeper thread waits on a condition variable between its sweeps, and the
destructor stores `stopping_` and notifies it without taking `sweeperMutex_`.  A
notification is missed exactly when it falls between the sweeper's look at
`stopping_` and the moment it blocks.
-/

namespace CurrencyConverter

open TimeAndSizeBoundedCache

/-- Where the sweeper is in `sweepLoop` and in the `wait_for` it calls there. -/
inductive SweepLoop
  | start
  | test
  /-- `wait_for` looks at its predicate, and waits if it is false. -/
  | predicate
  /-- The predicate was false: next, the mutex is released and the thread blocks. -/
  | release
  | blocked
  | woken (timedOut : Bool)
  /-- `wait_for` has timed out and returns its predicate. -/
  | timedOut
  | check
  | sweep
  | exited
  deriving DecidableEq

inductive Destructor
  | store
  | notify
  | join
  | done
  deriving DecidableEq

/-- The members that the sweeper and the destructor share, and where the two are;
before its `store` the destructor has not begun. -/
structure SweptCache (K V T : Type) where
  cache : TimeAndSizeBoundedCache K V T
  stopping : Bool
  sweeperMutex : Bool
  sweeper : SweepLoop
  destructor : Destructor

namespace SweptCache

variable {K V T : Type}

inductive Step (T : Type)
  | lock
  | test
  | evaluate
  | block
  | wake (timedOut : Bool)
  | check
  | sweepExpired (clock : ℕ → T)
  | store
  | notifyAll
  | join

def init (c : TimeAndSizeBoundedCache K V T) : SweptCache K V T := ⟨c, false, false, .start, .store⟩

/-- Leaving the loop releases the mutex. -/
def leave (s : SweptCache K V T) : SweptCache K V T :=
  { s with sweeper := .exited, sweeperMutex := false }

variable [DecidableEq K] [Ticks T]

/-- One atomic step of either thread, `none` where it cannot be taken. -/
def step (s : SweptCache K V T) : Step T → Option (SweptCache K V T)
  | .lock =>
      if s.sweeperMutex then none
      else
        match s.sweeper with
        | .start => some { s with sweeper := .test, sweeperMutex := true }
        | .woken true => some { s with sweeper := .timedOut, sweeperMutex := true }
        | .woken false => some { s with sweeper := .predicate, sweeperMutex := true }
        | _ => none
  | .test =>
      if s.sweeper = .test then
        some (if s.stopping then s.leave else { s with sweeper := .predicate })
      else none
  | .evaluate =>
      match s.sweeper with
      | .predicate => some { s with sweeper := if s.stopping then .check else .release }
      | .timedOut => some { s with sweeper := .check }
      | _ => none
  | .block =>
      if s.sweeper = .release then some { s with sweeper := .blocked, sweeperMutex := false }
      else none
  | .wake timedOut =>
      if s.sweeper = .blocked then some { s with sweeper := .woken timedOut } else none
  | .check =>
      if s.sweeper = .check then some (if s.stopping then s.leave else { s with sweeper := .sweep })
      else none
  | .sweepExpired clock =>
      if s.sweeper = .sweep then
        some { s with cache := s.cache.sweepExpired clock, sweeper := .test }
      else none
  | .store =>
      if s.destructor = .store then some { s with stopping := true, destructor := .notify }
      else none
  | .notifyAll =>
      if s.destructor = .notify then
        some { s with
          sweeper := if s.sweeper = .blocked then .woken false else s.sweeper
          destructor := .join }
      else none
  | .join =>
      if s.destructor = .join ∧ s.sweeper = .exited then some { s with destructor := .done }
      else none

/-- The destructor waits for a sweeper that sleeps through its notification. -/
def Missed (s : SweptCache K V T) : Prop := s.destructor = .join ∧ s.sweeper = .blocked

/-- `notify_all` does not fall between a look at the predicate and the block. -/
def NotifiesInTime (s : SweptCache K V T) : Step T → Prop
  | .notifyAll => s.sweeper ≠ .release
  | _ => True

/-- `stopping_` is set from the destructor's first step on. -/
def StopsOnceBegun (s : SweptCache K V T) : Prop := s.destructor ≠ .store → s.stopping = true

/-- A sweeper that is to be joined neither blocks nor is about to. -/
def Awake (s : SweptCache K V T) : Prop :=
  s.destructor = .join → s.sweeper ≠ .release ∧ s.sweeper ≠ .blocked

/-- The three steps of the destructor, and what all those of the sweeper have in
common: it is about to block only if it saw `stopping_` false, and blocks only then. -/
theorem step_cases {s s' : SweptCache K V T} {e : Step T} (hstep : s.step e = some s') :
    (e = .store ∧ s.destructor = .store ∧ s'.stopping = true ∧ s'.destructor = .notify) ∨
    (e = .notifyAll ∧ s.destructor = .notify ∧ s'.stopping = s.stopping ∧
      s'.destructor = .join ∧
      s'.sweeper = if s.sweeper = .blocked then .woken false else s.sweeper) ∨
    (e = .join ∧ s.destructor = .join ∧ s'.stopping = s.stopping ∧ s'.destructor = .done) ∨
    (NotifiesInTime s e ∧ s'.stopping = s.stopping ∧ s'.destructor = s.destructor ∧
      (s'.sweeper = .release → s.stopping = false) ∧
      (s'.sweeper = .blocked → s.sweeper = .release)) := by
  cases e with
  | store =>
      left
      simp only [step] at hstep
      split at hstep
      case isTrue hbegin =>
        cases hstep
        exact ⟨rfl, hbegin, rfl, rfl⟩
      case isFalse => cases hstep
  | notifyAll =>
      right; left
      simp only [step] at hstep
      split at hstep
      case isTrue hstored =>
        cases hstep
        exact ⟨rfl, hstored, rfl, rfl, rfl⟩
      case isFalse => cases hstep
  | join =>
      right; right; left
      simp only [step] at hstep
      split at hstep
      case isTrue hexited =>
        cases hstep
        exact ⟨rfl, hexited.1, rfl, rfl⟩
      case isFalse => cases hstep
  | lock =>
      right; right; right
      simp only [step] at hstep
      grind [NotifiesInTime]
  | test =>
      right; right; right
      simp only [step, leave] at hstep
      grind [NotifiesInTime]
  | evaluate =>
      right; right; right
      simp only [step] at hstep
      grind [NotifiesInTime]
  | block =>
      right; right; right
      simp only [step] at hstep
      grind [NotifiesInTime]
  | wake timedOut =>
      right; right; right
      simp only [step] at hstep
      grind [NotifiesInTime]
  | check =>
      right; right; right
      simp only [step, leave] at hstep
      grind [NotifiesInTime]
  | sweepExpired clock =>
      right; right; right
      simp only [step] at hstep
      grind [NotifiesInTime]

theorem StopsOnceBegun.step {s s' : SweptCache K V T} {e : Step T} (hs : StopsOnceBegun s)
    (hstep : s.step e = some s') : StopsOnceBegun s' := by
  intro hbegun
  rcases step_cases hstep with ⟨_, _, hstopping, _⟩ | ⟨_, hd, hstopping, _⟩ |
    ⟨_, hd, hstopping, _⟩ | ⟨_, hstopping, hd, _⟩
  · exact hstopping
  · exact hstopping.trans (hs (by simp [hd]))
  · exact hstopping.trans (hs (by simp [hd]))
  · exact hstopping.trans (hs (hd ▸ hbegun))

theorem awake_step_iff {s s' : SweptCache K V T} {e : Step T} (hs : StopsOnceBegun s)
    (hawake : Awake s) (hstep : s.step e = some s') : Awake s' ↔ NotifiesInTime s e := by
  rcases step_cases hstep with ⟨rfl, _, _, hd⟩ | ⟨rfl, _, _, hd, hsweeper⟩ | ⟨rfl, _, _, hd⟩ |
    ⟨hintime, _, hd, hrelease, hblocked⟩
  · exact iff_of_true (fun h ↦ by simp [hd] at h) trivial
  · -- a blocked sweeper is woken, any other one stays where it is
    by_cases hb : s.sweeper = .blocked
    · simp [Awake, NotifiesInTime, hsweeper, hb]
    · simp [Awake, NotifiesInTime, hd, hsweeper, hb]
  · exact iff_of_true (fun h ↦ by simp [hd] at h) trivial
  · refine iff_of_true (fun hjoin ↦ ?_) hintime
    have hjoin' : s.destructor = .join := hd.symm.trans hjoin
    have hstopping : s.stopping = true := hs (by simp [hjoin'])
    exact ⟨fun h ↦ by simp [hrelease h] at hstopping, fun h ↦ (hawake hjoin').1 (hblocked h)⟩

/-- A missed notification leaves nothing but a timeout or a spurious wake-up. -/
theorem Missed.wake_of_step {s : SweptCache K V T} (hmissed : Missed s) {e : Step T}
    (hpossible : s.step e ≠ none) : ∃ timedOut, e = .wake timedOut := by
  obtain ⟨hjoin, hblocked⟩ := hmissed
  cases e with
  | wake timedOut => exact ⟨timedOut, rfl⟩
  | _ => simp [step, hjoin, hblocked] at hpossible

/-- A sweeper that blocks after the notification has missed it. -/
theorem missed_of_block {s : SweptCache K V T} (hjoin : s.destructor = .join)
    (hrelease : s.sweeper = .release) : ∃ s', s.step .block = some s' ∧ Missed s' := by
  simp [step, Missed, hjoin, hrelease]

end SweptCache

open SweptCache

/-- No notification is missed in a run whose `notify_all` does not fall between the
sweeper's look at its predicate and its block, and where it does, one is missed as
soon as the sweeper blocks. -/
theorem shutdown_reaches_sweeper {K V T : Type} [DecidableEq K] [Ticks T]
    (c : TimeAndSizeBoundedCache K V T) (events : List (SweptCache.Step T)) :
    (EventRun.EachStep SweptCache.step NotifiesInTime (init c) events →
      EventRun.Always SweptCache.step (fun s ↦ ¬ Missed s) (init c) events) ∧
    ∀ s e, EventRun.run SweptCache.step (init c) events = some s → s.step e ≠ none →
      ¬ NotifiesInTime s e →
        ∃ s', EventRun.run SweptCache.step (init c) (events ++ [e] ++ [.block]) = some s' ∧
          Missed s' := by
  have hinit : StopsOnceBegun (init c) := fun h ↦ absurd rfl h
  constructor
  · intro hgood past hpast s hrun hmissed
    have hawake : EventRun.Always SweptCache.step Awake (init c) events := by
      refine (EventRun.always_iff_eachStep ?_ ?_ hinit ?_ events).mpr hgood
      · intro s e s' hs hstep
        exact hs.step hstep
      · intro s e s' hs hawake hstep
        exact awake_step_iff hs hawake hstep
      · intro hjoin
        cases hjoin
    exact (hawake past hpast s hrun hmissed.1).2 hmissed.2
  · intro s e hrun hpossible hlate
    obtain ⟨rfl, hrelease⟩ : e = .notifyAll ∧ s.sweeper = .release := by
      cases e with
      | notifyAll => exact ⟨rfl, by simpa [NotifiesInTime] using hlate⟩
      | _ => exact absurd trivial hlate
    obtain ⟨s₁, hnotify⟩ := Option.ne_none_iff_exists'.mp hpossible
    rcases step_cases hnotify with ⟨h, _⟩ | ⟨_, _, _, hjoin, hsweeper⟩ | ⟨h, _⟩ | ⟨h, _⟩
    · cases h
    · rw [hrelease, if_neg (by decide)] at hsweeper
      obtain ⟨s₂, hblock, hmissed⟩ := missed_of_block hjoin hsweeper
      refine ⟨s₂, ?_, hmissed⟩
      exact EventRun.run_concat_eq_some.mpr
        ⟨s₁, EventRun.run_concat_eq_some.mpr ⟨s, hrun, hnotify⟩, hblock⟩
    · cases h
    · exact absurd h hlate

/-- The destructor stores and notifies while the sweeper is between its look at
`stopping_` and its block. -/
def lateNotification : List (SweptCache.Step ℤ) :=
  [.lock, .test, .evaluate, .store, .notifyAll, .block]

theorem shutdown_missed_by_sweeper :
    ∃ s, EventRun.run SweptCache.step
        (init (⟨1440, 5000, [], fun _ ↦ none, 0⟩ : TimeAndSizeBoundedCache ℕ ℕ ℤ))
        lateNotification = some s ∧ Missed s ∧
      ∀ e, s.step e ≠ none → ∃ timedOut, e = .wake timedOut := by
  have hmissed : Missed (⟨⟨1440, 5000, [], fun _ ↦ none, 0⟩, true, false, .blocked, .join⟩ :
      SweptCache ℕ ℕ ℤ) := ⟨rfl, rfl⟩
  exact ⟨_, rfl, hmissed, fun _ ↦ hmissed.wake_of_step⟩

end CurrencyConverter
