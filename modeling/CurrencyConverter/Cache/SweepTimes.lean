import CurrencyConverter.Cache.Shutdown
import CurrencyConverter.Cache.Sweep
import Mathlib.Algebra.Ring.Int.Defs

/-!
# How long a sweep is due

The sweeper by the steady clock.  `wait_for` waits until its deadline, whatever wakes it
before, and every other step of the two threads is late by some delay at most.  Then an
entry outlives its age by one interval and a few delays, and so does the destructor its
`store`.
-/

namespace CurrencyConverter

open TimeAndSizeBoundedCache CoherentCache

/-- The `interval` of `sweepLoop` in nanoseconds: half the age, but a minute at least.  Here
and in the deadlines below nanoseconds are integers, so the 64 signed bits of the source are
assumed not to wrap.  Where an age itself fits them they do not (`toInt_deadline`); the
deadline wraps from an age of 307445734 minutes on. -/
def sweepInterval (maxAge : ℤ) : ℤ :=
  (if 1 < maxAge.tdiv 2 then maxAge.tdiv 2 else 1) * 60000000000

theorem sweepInterval_pos (maxAge : ℤ) : 0 < sweepInterval maxAge := by
  unfold sweepInterval
  split
  · omega
  · decide

/-- The deadline of `wait_for` in 64 signed bits, for an age that fits them and a clock that
has run for less than 146 years. -/
theorem toInt_deadline {maxAge : ℤ} (hfits : maxAge ≤ 153722867) {now : Int64}
    (hstarted : 0 ≤ now.toInt) (hnow : now.toInt < 2 ^ 62) :
    (now + Int64.ofInt (sweepInterval maxAge)).toInt = now.toInt + sweepInterval maxAge := by
  have hpos := sweepInterval_pos maxAge
  have hhalf : maxAge.tdiv 2 ≤ 76861433 := Int.tdiv_le_tdiv (by decide) hfits
  have hle : sweepInterval maxAge ≤ 2 ^ 62 := by
    unfold sweepInterval
    split
    · omega
    · decide
  have hwrap : (sweepInterval maxAge).bmod (2 ^ 64) = sweepInterval maxAge :=
    Int.bmod_eq_of_le (by omega) (by omega)
  have hinterval : (Int64.ofInt (sweepInterval maxAge)).toInt = sweepInterval maxAge :=
    Int64.toInt_ofInt.trans hwrap
  rw [Int64.toInt_add, hinterval]
  exact Int.bmod_eq_of_le (by omega) (by omega)

/-- A cache in use beside its sweeper and its destructor, with the times of their last
steps. -/
structure TimedCache (K V : Type) where
  swept : SweptCache K V ℤ
  now : ℤ
  /-- Until when the last call of `wait_for` waits. -/
  deadline : ℤ
  sweeperSince : ℤ
  destructorSince : ℤ
  /-- When the destructor stored `stopping_`. -/
  stoppedAt : ℤ

namespace TimedCache

variable {K V : Type}

inductive Step (K V : Type)
  | get (now : ℤ) (key : K)
  | put (now : ℤ) (key : K) (value : V)
  | thread (now : ℤ) (e : SweptCache.Step ℤ)

def Step.time : Step K V → ℤ
  | .get now _ => now
  | .put now _ _ => now
  | .thread now _ => now

def init (c : TimeAndSizeBoundedCache K V ℤ) (start : ℤ) : TimedCache K V :=
  ⟨.init c, start, start, start, start, start⟩

/-- A wake-up is a timeout exactly when the deadline has passed, and a sweep reads the clock
while it runs. -/
def Possible (s : TimedCache K V) (now : ℤ) : SweptCache.Step ℤ → Prop
  | .wake true => s.deadline ≤ now
  | .wake false => now < s.deadline
  | .sweepExpired clock => ∀ i < s.swept.cache.entries.length, s.now ≤ clock i ∧ clock i ≤ now
  | _ => True

instance (s : TimedCache K V) (now : ℤ) (e : SweptCache.Step ℤ) : Decidable (s.Possible now e) := by
  unfold Possible
  split <;> infer_instance

/-- The test that finds `stopping_` clear calls `wait_for`. -/
def nextDeadline (maxAge now deadline : ℤ) : SweptCache.Step ℤ → ℤ
  | .test => now + sweepInterval maxAge
  | _ => deadline

def deadlineAfter (s : TimedCache K V) (now : ℤ) (e : SweptCache.Step ℤ) : ℤ :=
  if s.swept.stopping then s.deadline
  else nextDeadline s.swept.cache.maxAge now s.deadline e

/-- A notification is a step for the sweeper, too, if it waits for it. -/
def sweeperSinceAfter (s : TimedCache K V) (now : ℤ) : SweptCache.Step ℤ → ℤ
  | .store | .join => s.sweeperSince
  | .notifyAll => if s.swept.sweeper = .blocked then now else s.sweeperSince
  | _ => now

def destructorSinceAfter (s : TimedCache K V) (now : ℤ) : SweptCache.Step ℤ → ℤ
  | .store | .notifyAll | .join => now
  | _ => s.destructorSince

def stoppedAtAfter (s : TimedCache K V) (now : ℤ) : SweptCache.Step ℤ → ℤ
  | .store => now
  | _ => s.stoppedAt

/-- The step `e` of a thread at `now`, which leaves `swept`. -/
def advance (s : TimedCache K V) (now : ℤ) (e : SweptCache.Step ℤ) (swept : SweptCache K V ℤ) :
    TimedCache K V where
  swept := swept
  now := now
  deadline := s.deadlineAfter now e
  sweeperSince := s.sweeperSinceAfter now e
  destructorSince := s.destructorSinceAfter now e
  stoppedAt := s.stoppedAtAfter now e

/-- A call of another thread at `now`, which leaves `cache`. -/
def used (s : TimedCache K V) (now : ℤ) (cache : TimeAndSizeBoundedCache K V ℤ) : TimedCache K V :=
  { s with swept := { s.swept with cache := cache }, now := now }

/-- When the sweeper's next step is due. -/
def sweeperDue (s : TimedCache K V) : ℤ :=
  if s.swept.sweeper = .blocked then max s.sweeperSince s.deadline else s.sweeperSince

/-- When the event occurs, no thread is later than `delay` with its next step. -/
structure OnTime (delay : ℤ) (s : TimedCache K V) (e : Step K V) : Prop where
  sweeper : s.swept.sweeper ≠ .exited → e.time ≤ s.sweeperDue + delay
  notify : s.swept.destructor = .notify → e.time ≤ s.destructorSince + delay
  join : s.swept.destructor = .join → s.swept.sweeper = .exited →
    e.time ≤ max s.sweeperSince s.destructorSince + delay

variable [DecidableEq K] {s s' : TimedCache K V} {e : Step K V}

/-- One step at its time, `none` where it cannot be taken then. -/
def step (s : TimedCache K V) (e : Step K V) : Option (TimedCache K V) :=
  if s.now ≤ e.time then
    match e with
    | .get now key => (s.swept.cache.get now key).map fun done ↦ s.used now done.2
    | .put now key value => (s.swept.cache.put now key value).map (s.used now)
    | .thread now e =>
        if s.Possible now e then (s.swept.step e).map (s.advance now e) else none
  else none

omit [DecidableEq K] in
instance (delay : ℤ) (s : TimedCache K V) (e : Step K V) : Decidable (OnTime delay s e) :=
  decidable_of_iff
    ((s.swept.sweeper ≠ .exited → e.time ≤ s.sweeperDue + delay) ∧
      (s.swept.destructor = .notify → e.time ≤ s.destructorSince + delay) ∧
      (s.swept.destructor = .join → s.swept.sweeper = .exited →
        e.time ≤ max s.sweeperSince s.destructorSince + delay))
    ⟨fun h ↦ ⟨h.1, h.2.1, h.2.2⟩, fun h ↦ ⟨h.sweeper, h.notify, h.join⟩⟩

/-- What one step does: a call on the cache, or a step of one of its two threads. -/
theorem step_cases (h : s.step e = some s') : s.now ≤ e.time ∧
    ((∃ op r cache, s.swept.cache.exec op = some (r, cache) ∧
        (∀ t k v, op = .put t k v → t = e.time) ∧ s' = s.used e.time cache) ∨
      ∃ e' swept, e = .thread e.time e' ∧ s.Possible e.time e' ∧
        s.swept.step e' = some swept ∧ s' = s.advance e.time e' swept) := by
  simp only [step] at h
  split at h
  · next hle =>
      refine ⟨hle, ?_⟩
      cases e with
      | get now key =>
          obtain ⟨⟨r, cache⟩, hget, rfl⟩ := Option.map_eq_some_iff.mp h
          exact .inl ⟨.get now key, r, cache, hget, by simp, rfl⟩
      | put now key value =>
          obtain ⟨cache, hput, rfl⟩ := Option.map_eq_some_iff.mp h
          refine .inl ⟨.put now key value, none, cache, by simp [exec, hput], ?_, rfl⟩
          rintro t k v ⟨⟩
          rfl
      | thread now e' =>
          simp only at h
          split at h
          · next hpossible =>
              obtain ⟨swept, hswept, rfl⟩ := Option.map_eq_some_iff.mp h
              exact .inr ⟨e', swept, rfl, hpossible, hswept, rfl⟩
          · cases h
  · cases h

/-! ## What every run keeps -/

structure Sane (maxAge : ℤ) (s : TimedCache K V) : Prop where
  orderly : s.swept.Orderly
  coherent : s.swept.cache.Coherent
  age : s.swept.cache.maxAge = maxAge
  sweeperSince : s.sweeperSince ≤ s.now
  destructorSince : s.destructorSince ≤ s.now
  deadline : s.deadline ≤ s.now + sweepInterval maxAge

variable {maxAge delay : ℤ}

omit [DecidableEq K] in
theorem sane_init {c : TimeAndSizeBoundedCache K V ℤ} (hc : c.Coherent) (start : ℤ) :
    Sane c.maxAge (init c start) where
  orderly := SweptCache.orderly_init c
  coherent := hc
  age := rfl
  sweeperSince := le_rfl
  destructorSince := le_rfl
  deadline := by
    have := sweepInterval_pos c.maxAge
    simp only [init]
    omega

theorem swept_of_step {swept swept' : SweptCache K V ℤ} {clock : ℕ → ℤ}
    (h : swept.step (.sweepExpired clock) = some swept') :
    swept'.cache = swept.cache.sweepExpired clock := by
  simp only [SweptCache.step] at h
  split at h
  · cases h
    rfl
  · cases h

theorem cache_of_step {swept swept' : SweptCache K V ℤ} {e : SweptCache.Step ℤ}
    (h : swept.step e = some swept') (he : ∀ clock, e ≠ .sweepExpired clock) :
    swept'.cache = swept.cache := by
  cases e with
  | sweepExpired clock => exact absurd rfl (he clock)
  | _ =>
      simp only [SweptCache.step, SweptCache.leave] at h
      grind

theorem coherent_of_exec {c c' : TimeAndSizeBoundedCache K V ℤ} (hc : c.Coherent)
    {op : Op K V ℤ} {r : Option V} (h : c.exec op = some (r, c')) :
    c'.Coherent ∧ c'.maxAge = c.maxAge := by
  obtain ⟨r₁, c₁, hexec, hcoherent, hage, -⟩ := hc.exec op
  obtain ⟨-, rfl⟩ := Prod.mk.inj (Option.some.inj (hexec.symm.trans h))
  exact ⟨hcoherent, hage⟩

theorem Sane.step (h : Sane maxAge s) (hstep : s.step e = some s') : Sane maxAge s' := by
  obtain ⟨hle, ⟨op, r, cache, hexec, -, rfl⟩ | ⟨e', swept, -, -, hswept, rfl⟩⟩ := step_cases hstep
  · obtain ⟨hcoherent, hage⟩ := coherent_of_exec h.coherent hexec
    exact {
      orderly := ⟨h.orderly.mutex, h.orderly.stops, h.orderly.joined⟩
      coherent := hcoherent
      age := hage.trans h.age
      sweeperSince := h.sweeperSince.trans hle
      destructorSince := h.destructorSince.trans hle
      deadline := h.deadline.trans (Int.add_le_add_right hle _) }
  · have hcache : swept.cache.Coherent ∧ swept.cache.maxAge = s.swept.cache.maxAge := by
      cases e' with
      | sweepExpired clock =>
          have hexec : s.swept.cache.exec (.sweepExpired clock) =
              some (none, s.swept.cache.sweepExpired clock) := rfl
          rw [swept_of_step hswept]
          exact coherent_of_exec h.coherent hexec
      | _ =>
          rw [cache_of_step hswept (by simp)]
          exact ⟨h.coherent, rfl⟩
    have hsweeper := h.sweeperSince
    have hdestructor := h.destructorSince
    have hdeadline := h.deadline
    have hage := h.age
    refine ⟨h.orderly.step hswept, hcache.1, hcache.2.trans h.age, ?_, ?_, ?_⟩
    · simp only [advance, sweeperSinceAfter]
      grind
    · simp only [advance, destructorSinceAfter]
      grind
    · simp only [advance, deadlineAfter, nextDeadline]
      grind

/-! ## Until the next sweep -/

/-- How far the sweeper is behind its deadline, in steps. -/
def behind : SweepLoop → ℤ
  | .predicate => 1
  | .release => 2
  | .blocked => 3
  | .woken true => 4
  | .timedOut => 5
  | .check => 6
  | .sweep => 7
  | _ => 0

/-- Where the sweeper, whose last step was at `since`, is in the round that follows the sweep
at `sweptAt`. -/
def InRound (maxAge delay sweptAt since deadline : ℤ) : SweepLoop → Prop
  | .start => since ≤ sweptAt
  | .test => since ≤ sweptAt + delay
  | .exited => False
  | p => deadline ≤ sweptAt + 2 * delay + sweepInterval maxAge ∧ since ≤ deadline + behind p * delay

theorem InRound.moves {sweptAt since deadline now : ℤ} {p p' : SweepLoop} {e : SweptCache.Step ℤ}
    (h : InRound maxAge delay sweptAt since deadline p) (hdelay : 0 ≤ delay)
    (hmoves : SweptCache.Moves e false p p') (hsweep : p ≠ .sweep)
    (hnow : now ≤ (if p = .blocked then max since deadline else since) + delay)
    (hwake : e = .wake false → now < deadline) :
    InRound maxAge delay sweptAt now (nextDeadline maxAge now deadline e) p' := by
  have hinterval := sweepInterval_pos maxAge
  cases hmoves with
  | wake _ timedOut =>
      cases timedOut with
      | true =>
          simp only [InRound, behind, nextDeadline, if_true] at h hnow ⊢
          omega
      | false =>
          have hbefore := hwake rfl
          simp only [InRound, behind, nextDeadline] at h ⊢
          omega
  | swept => exact absurd rfl hsweep
  | _ =>
      simp only [InRound, behind, nextDeadline, reduceCtorEq, if_false] at h hnow ⊢
      omega

/-- At the end of a round the sweep is `behind` the last one by an interval and the steps of
the round. -/
structure Reclaims (maxAge delay sweptAt : ℤ) (s : TimedCache K V) : Prop where
  entries : ∀ x ∈ s.swept.cache.entries,
    sweptAt - x.insertedAt ≤ max 0 (maxAge * 60000000000)
  swept_le : sweptAt ≤ s.now
  now : s.now ≤ s.sweeperDue + delay
  round : InRound maxAge delay sweptAt s.sweeperSince s.deadline s.swept.sweeper

omit [DecidableEq K] in
theorem Reclaims.not_exited {sweptAt : ℤ} (h : Reclaims maxAge delay sweptAt s) :
    s.swept.sweeper ≠ .exited := by
  intro hexited
  have hround := h.round
  rw [hexited] at hround
  exact hround

omit [DecidableEq K] in
/-- No entry is older than its age, an interval and ten steps. -/
theorem Reclaims.age_le {sweptAt : ℤ} (h : Reclaims maxAge delay sweptAt s) (hdelay : 0 ≤ delay)
    {x : Entry K V ℤ} (hx : x ∈ s.swept.cache.entries) :
    s.now - x.insertedAt ≤
      max 0 (maxAge * 60000000000) + sweepInterval maxAge + 10 * delay := by
  have hentry := h.entries x hx
  have hnow := h.now
  have hround := h.round
  have hinterval := sweepInterval_pos maxAge
  unfold sweeperDue at hnow
  cases hp : s.swept.sweeper with
  | woken timedOut =>
      cases timedOut with
      | _ =>
          simp only [hp, InRound, behind, reduceCtorEq, if_false] at hnow hround
          omega
  | blocked =>
      simp only [hp, InRound, behind, if_true] at hnow hround
      omega
  | exited => exact absurd hp h.not_exited
  | _ =>
      simp only [hp, InRound, behind, reduceCtorEq, if_false] at hnow hround
      omega

theorem Reclaims.used {sweptAt : ℤ} (h : Reclaims maxAge delay sweptAt s) (hsane : Sane maxAge s)
    (hle : s.now ≤ e.time) (hontime : OnTime delay s e) {op : Op K V ℤ} {r : Option V}
    {cache : TimeAndSizeBoundedCache K V ℤ} (hexec : s.swept.cache.exec op = some (r, cache))
    (hput : ∀ t k v, op = .put t k v → t = e.time) :
    Reclaims maxAge delay sweptAt (s.used e.time cache) where
  entries := by
    intro x hx
    let c : CoherentCache K V ℤ := ⟨s.swept.cache, hsane.coherent⟩
    have hcache : (c.step op).2.cache = cache := (c.step_of_exec hexec).2
    have hx' : x ∈ (c.step op).2.entries := by
      rw [CoherentCache.entries, hcache]
      exact hx
    rcases c.mem_step hx' with ⟨hold, -⟩ | hnew
    · exact h.entries x hold
    · have hat := hput _ _ _ hnew
      have hswept := h.swept_le
      omega
  swept_le := h.swept_le.trans hle
  now := hontime.sweeper h.not_exited
  round := h.round

omit [DecidableEq K] in
theorem sweeperSinceAfter_of_moves {now : ℤ} {e' : SweptCache.Step ℤ} {b : Bool} {p p' : SweepLoop}
    (h : SweptCache.Moves e' b p p') : s.sweeperSinceAfter now e' = now := by
  cases h with
  | _ => rfl

omit [DecidableEq K] in
theorem deadlineAfter_of_running (hsane : Sane maxAge s) (hrunning : s.swept.stopping = false)
    (now : ℤ) (e' : SweptCache.Step ℤ) :
    s.deadlineAfter now e' = nextDeadline maxAge now s.deadline e' := by
  simp [deadlineAfter, hrunning, hsane.age]

/-- A sweep drops what is past its age when it begins. -/
theorem young_of_swept (hsane : Sane maxAge s) {now : ℤ} {clock : ℕ → ℤ}
    (hpossible : s.Possible now (.sweepExpired clock)) {x : Entry K V ℤ}
    (hx : x ∈ (s.swept.cache.sweepExpired clock).entries) :
    s.now - x.insertedAt ≤ maxAge * 60000000000 := by
  rw [sweepExpired_entries, mem_survivors] at hx
  obtain ⟨j, hj, hlive⟩ := hx
  obtain ⟨hlt, -⟩ := List.getElem?_eq_some_iff.mp hj
  obtain ⟨hread, -⟩ := hpossible j hlt
  rw [hsane.age, isExpired_eq_false_iff] at hlive
  omega

omit [DecidableEq K] in
theorem sweep_cases {e' : SweptCache.Step ℤ} {b : Bool} {p p' : SweepLoop}
    (h : SweptCache.Moves e' b p p') :
    (p = .sweep ∧ p' = .test ∧ ∃ clock, e' = .sweepExpired clock) ∨
      (p ≠ .sweep ∧ ∀ clock, e' ≠ .sweepExpired clock) := by
  cases h with
  | swept _ clock => exact .inl ⟨rfl, rfl, clock, rfl⟩
  | _ => exact .inr ⟨by simp, by simp⟩

theorem Reclaims.moves {sweptAt : ℤ} (h : Reclaims maxAge delay sweptAt s)
    (hsane : Sane maxAge s) (hdelay : 0 ≤ delay) (hle : s.now ≤ e.time)
    (hontime : OnTime delay s e) {e' : SweptCache.Step ℤ} {swept : SweptCache K V ℤ}
    (hpossible : s.Possible e.time e') (hswept : s.swept.step e' = some swept)
    (hrunning : s.swept.stopping = false)
    (hmoves : SweptCache.Moves e' false s.swept.sweeper swept.sweeper) :
    ∃ sweptAt', Reclaims maxAge delay sweptAt' (s.advance e.time e' swept) := by
  have hdue := hontime.sweeper h.not_exited
  have hsince : (s.advance e.time e' swept).sweeperSince = e.time := by
    exact sweeperSinceAfter_of_moves hmoves
  have hnow : e.time ≤ (s.advance e.time e' swept).sweeperDue + delay := by
    rw [sweeperDue, hsince]
    split <;> omega
  rcases sweep_cases hmoves with ⟨hsweep, htest, clock, rfl⟩ | ⟨hsweep, hother⟩
  · refine ⟨s.now, ?_, hle, hnow, ?_⟩
    · intro x hx
      have hx' : x ∈ (s.swept.cache.sweepExpired clock).entries := by
        rw [← swept_of_step hswept]
        exact hx
      exact (young_of_swept hsane hpossible hx').trans (le_max_right _ _)
    · have hsinceBefore := hsane.sweeperSince
      rw [sweeperDue, hsweep, if_neg (by decide)] at hdue
      change InRound maxAge delay s.now (s.advance e.time _ swept).sweeperSince _ swept.sweeper
      rw [hsince, htest, InRound]
      omega
  · refine ⟨sweptAt, ?_, h.swept_le.trans hle, hnow, ?_⟩
    · intro x hx
      rw [advance, cache_of_step hswept hother] at hx
      exact h.entries x hx
    · have hwake : e' = .wake false → e.time < s.deadline := by
        rintro rfl
        exact hpossible
      change InRound maxAge delay sweptAt _ (s.deadlineAfter e.time e') swept.sweeper
      rw [hsince, deadlineAfter_of_running hsane hrunning]
      exact h.round.moves hdelay hmoves hsweep hdue hwake

/-- One step of a run that has not begun to stop. -/
theorem Reclaims.step {sweptAt : ℤ} (h : Reclaims maxAge delay sweptAt s) (hsane : Sane maxAge s)
    (hdelay : 0 ≤ delay) (hontime : OnTime delay s e) (hstep : s.step e = some s')
    (hrunning : s'.swept.stopping = false) : ∃ sweptAt', Reclaims maxAge delay sweptAt' s' := by
  obtain ⟨hle, ⟨op, r, cache, hexec, hput, rfl⟩ | ⟨e', swept, -, hpossible, hswept, rfl⟩⟩ :=
    step_cases hstep
  · exact ⟨sweptAt, h.used hsane hle hontime hexec hput⟩
  · have hbegun : s.swept.stopping = false → s.swept.destructor = .store := by
      intro hstopping
      by_contra hbegun
      rw [hsane.orderly.stops hbegun] at hstopping
      cases hstopping
    rcases SweptCache.step_moves hsane.orderly.mutex hswept with ⟨-, -, rfl⟩ | ⟨-, hnotify, rfl⟩ |
      ⟨-, hjoin, -, rfl⟩ | ⟨hmoves, hstopping, -, -⟩
    · cases hrunning
    · cases hnotify.symm.trans (hbegun hrunning)
    · cases hjoin.symm.trans (hbegun hrunning)
    · have hrunningBefore : s.swept.stopping = false := hstopping.symm.trans hrunning
      rw [hrunningBefore] at hmoves
      exact h.moves hsane hdelay hle hontime hpossible hswept hrunningBefore hmoves

theorem running_of_step (hstep : s.step e = some s') (hrunning : s'.swept.stopping = false) :
    s.swept.stopping = false := by
  obtain ⟨-, ⟨op, r, cache, -, -, rfl⟩ | ⟨e', swept, -, -, hswept, rfl⟩⟩ := step_cases hstep
  · exact hrunning
  · rcases SweptCache.step_cases hswept with ⟨-, -, hstopping, -⟩ | ⟨-, -, hstopping, -⟩ |
      ⟨-, -, hstopping, -⟩ | ⟨-, hstopping, -⟩
    · cases hrunning.symm.trans hstopping
    · exact hstopping.symm.trans hrunning
    · exact hstopping.symm.trans hrunning
    · exact hstopping.symm.trans hrunning

/-- What a run keeps while it is on time. -/
structure Reclaiming (maxAge delay : ℤ) (s : TimedCache K V) : Prop where
  sane : Sane maxAge s
  reclaims : s.swept.stopping = false → ∃ sweptAt, Reclaims maxAge delay sweptAt s

omit [DecidableEq K] in
theorem reclaiming_init {maxElements : ℕ} (hpos : 0 < maxElements) (start : ℤ)
    (hdelay : 0 ≤ delay) :
    Reclaiming maxAge delay
      (init (empty maxAge maxElements hpos).cache start : TimedCache K V) where
  sane := sane_init (empty maxAge maxElements hpos).coherent start
  reclaims := by
    refine fun _ ↦ ⟨start, (fun x hx ↦ nomatch hx), le_rfl, ?_, le_rfl⟩
    simp only [init, sweeperDue, SweptCache.init, reduceCtorEq, if_false]
    omega

theorem Reclaiming.step (h : Reclaiming maxAge delay s) (hdelay : 0 ≤ delay)
    (hontime : OnTime delay s e) (hstep : s.step e = some s') : Reclaiming maxAge delay s' where
  sane := h.sane.step hstep
  reclaims := by
    intro hrunning
    obtain ⟨sweptAt, hreclaims⟩ := h.reclaims (running_of_step hstep hrunning)
    exact hreclaims.step h.sane hdelay hontime hstep hrunning

/-- The sweep is for entries that nobody reads again: as long as the sweeper is not stopped,
none stays in the cache for longer than its age, an interval and ten delays. -/
theorem entries_are_reclaimed (maxAge : ℤ) {maxElements : ℕ} (hpos : 0 < maxElements) (start : ℤ)
    (hdelay : 0 ≤ delay) {events : List (Step K V)}
    (hontime : EventRun.EachStep step (OnTime delay)
      (init (empty maxAge maxElements hpos).cache start) events)
    (hrun : EventRun.run step (init (empty maxAge maxElements hpos).cache start) events = some s)
    (hrunning : s.swept.stopping = false) {x : Entry K V ℤ} (hx : x ∈ s.swept.cache.entries) :
    s.now - x.insertedAt ≤
      max 0 (maxAge * 60000000000) + sweepInterval maxAge + 10 * delay := by
  have hreclaiming : Reclaiming maxAge delay s :=
    EventRun.run_eachStep_inv (fun _ _ _ h hgood hstep ↦ h.step hdelay hgood hstep)
      (reclaiming_init hpos start hdelay) hontime hrun
  obtain ⟨sweptAt, hreclaims⟩ := hreclaiming.reclaims hrunning
  exact hreclaims.age_le hdelay hx

/-- A round of a sweeper that waits for a minute. -/
def round (now : ℤ) : List (Step ℕ ℕ) :=
  [.thread now (.wake true), .thread now .lock, .thread now .evaluate, .thread now .check,
    .thread now (.sweepExpired fun _ ↦ now), .thread now .test, .thread now .evaluate,
    .thread now .block]

/-- The entry is a nanosecond too young for the sweep after two minutes, and there until the
next one. -/
def justTooYoung : List (Step ℕ ℕ) :=
  [.thread 0 .lock, .thread 0 .test, .thread 0 .evaluate, .thread 0 .block, .put 1 7 70] ++
    round 60000000000 ++ round 120000000000 ++ [.get 180000000000 8]

theorem entries_are_reclaimed_just_in_time :
    ∃ s x, EventRun.run step (init (empty 2 4 (by decide)).cache 0) justTooYoung = some s ∧
      x ∈ s.swept.cache.entries ∧ s.now - x.insertedAt = 180000000000 - 1 ∧
      s.now - x.insertedAt ≤ max 0 (2 * 60000000000) + sweepInterval 2 + 10 * 0 := by
  obtain ⟨s, hrun, hage, hrunning, x, hx, hinserted⟩ : ∃ s,
      EventRun.run step (init (empty 2 4 (by decide)).cache 0) justTooYoung = some s ∧
        s.now = 180000000000 ∧ s.swept.stopping = false ∧
        ∃ x ∈ s.swept.cache.entries, x.insertedAt = 1 :=
    ⟨_, rfl, rfl, rfl, _, List.mem_cons_self, rfl⟩
  have hontime : EventRun.EachStep step (OnTime 0)
      (init (empty 2 4 (by decide)).cache 0) justTooYoung := EventRun.eachStep_of_check rfl
  refine ⟨s, x, hrun, hx, by rw [hage, hinserted], ?_⟩
  exact entries_are_reclaimed 2 (by decide) 0 le_rfl hontime hrun hrunning hx

/-! ## The destructor -/

/-- Once `stopping_` is stored, each step brings the sweeper closer to its end, but that it
may have to `wait`. -/
structure Stops (maxAge wait delay : ℤ) (s : TimedCache K V) : Prop where
  deadline : s.deadline ≤ s.stoppedAt + sweepInterval maxAge
  sweeper : s.sweeperSince + s.swept.sweeper.left * delay ≤ s.stoppedAt + wait + 5 * delay
  notify : s.swept.destructor = .notify → s.destructorSince ≤ s.stoppedAt
  join : s.swept.destructor = .join → s.destructorSince ≤ s.stoppedAt + delay
  destructor : s.destructorSince ≤ s.stoppedAt + wait + 6 * delay
  now : s.swept.destructor ≠ .done → s.now ≤ s.stoppedAt + wait + 6 * delay

variable {wait : ℤ}

omit [DecidableEq K] in
theorem Stops.due_le (h : Stops maxAge wait delay s) (hdelay : 0 ≤ delay) (hwait : 0 ≤ wait)
    (hbegun : s.swept.destructor ≠ .store) (hdone : s.swept.destructor ≠ .done)
    (hmissed : SweptCache.Missed s.swept → s.deadline ≤ s.stoppedAt + wait)
    (hontime : OnTime delay s e) (hexited : s.swept.sweeper ≠ .exited) :
    e.time + s.swept.sweeper.left * delay ≤ s.stoppedAt + wait + 6 * delay := by
  have hdue := hontime.sweeper hexited
  have hsweeper := h.sweeper
  by_cases hblocked : s.swept.sweeper = .blocked
  · rw [sweeperDue, if_pos hblocked] at hdue
    simp only [hblocked, SweepLoop.left] at hsweeper ⊢
    cases hd : s.swept.destructor with
    | store => exact absurd hd hbegun
    | done => exact absurd hd hdone
    | notify =>
        have hnotify := hontime.notify hd
        have hstored := h.notify hd
        omega
    | join =>
        have hdeadline := hmissed ⟨hd, hblocked⟩
        omega
  · rw [sweeperDue, if_neg hblocked] at hdue
    omega

omit [DecidableEq K] in
theorem Stops.time_le (h : Stops maxAge wait delay s) (hdelay : 0 ≤ delay) (hwait : 0 ≤ wait)
    (hbegun : s.swept.destructor ≠ .store) (hdone : s.swept.destructor ≠ .done)
    (hmissed : SweptCache.Missed s.swept → s.deadline ≤ s.stoppedAt + wait)
    (hontime : OnTime delay s e) : e.time ≤ s.stoppedAt + wait + 6 * delay := by
  by_cases hexited : s.swept.sweeper = .exited
  · have hsweeper := h.sweeper
    simp only [hexited, SweepLoop.left] at hsweeper
    cases hd : s.swept.destructor with
    | store => exact absurd hd hbegun
    | done => exact absurd hd hdone
    | notify =>
        have hnotify := hontime.notify hd
        have hstored := h.notify hd
        omega
    | join =>
        have hjoin := hontime.join hd hexited
        have hnotified := h.join hd
        omega
  · have hdue := h.due_le hdelay hwait hbegun hdone hmissed hontime hexited
    have hleft : 0 ≤ s.swept.sweeper.left * delay :=
      Int.mul_nonneg (Int.natCast_nonneg _) hdelay
    omega

omit [DecidableEq K] in
theorem destructorSinceAfter_of_moves {now : ℤ} {e' : SweptCache.Step ℤ} {b : Bool}
    {p p' : SweepLoop} (h : SweptCache.Moves e' b p p') :
    s.destructorSinceAfter now e' = s.destructorSince ∧ s.stoppedAtAfter now e' = s.stoppedAt := by
  cases h with
  | _ => exact ⟨rfl, rfl⟩

omit [DecidableEq K] in
/-- A step of the sweeper. -/
theorem Stops.moves (h : Stops maxAge wait delay s) (hdelay : 0 ≤ delay) (hwait : 0 ≤ wait)
    (hbegun : s.swept.destructor ≠ .store) (hdone : s.swept.destructor ≠ .done)
    (hstopping : s.swept.stopping = true)
    (hmissed : SweptCache.Missed s.swept → s.deadline ≤ s.stoppedAt + wait)
    (hontime : OnTime delay s e) {e' : SweptCache.Step ℤ} {swept : SweptCache K V ℤ}
    (hmoves : SweptCache.Moves e' true s.swept.sweeper swept.sweeper)
    (hdestructor : swept.destructor = s.swept.destructor) :
    Stops maxAge wait delay (s.advance e.time e' swept) := by
  obtain ⟨hdestructorSince, hstoppedAt⟩ :
      s.destructorSinceAfter e.time e' = s.destructorSince ∧
        s.stoppedAtAfter e.time e' = s.stoppedAt := destructorSinceAfter_of_moves hmoves
  have hnext : s.advance e.time e' swept =
      { s with swept := swept, now := e.time, sweeperSince := e.time } := by
    rw [advance, hdestructorSince, hstoppedAt, sweeperSinceAfter_of_moves hmoves, deadlineAfter,
      if_pos hstopping]
  have hexited : s.swept.sweeper ≠ .exited := by
    intro hexited
    rw [hexited] at hmoves
    exact SweptCache.not_moves_of_exited hmoves
  have hdue := h.due_le hdelay hwait hbegun hdone hmissed hontime hexited
  have hleft : ((swept.sweeper.left + 1 : ℕ) : ℤ) * delay ≤ s.swept.sweeper.left * delay :=
    Int.mul_le_mul_of_nonneg_right (Int.ofNat_le.mpr hmoves.left_lt) hdelay
  rw [hnext]
  refine ⟨h.deadline, ?_, ?_, ?_, h.destructor, ?_⟩
  · rw [Int.natCast_add, Int.add_mul] at hleft
    simp only
    omega
  · intro hnotify
    exact h.notify (hdestructor.symm.trans hnotify)
  · intro hjoin
    exact h.join (hdestructor.symm.trans hjoin)
  · exact fun _ ↦ h.time_le hdelay hwait hbegun hdone hmissed hontime

theorem Stops.step (h : Stops maxAge wait delay s) (hsane : Sane maxAge s) (hdelay : 0 ≤ delay)
    (hwait : 0 ≤ wait) (hbegun : s.swept.destructor ≠ .store)
    (hmissed : SweptCache.Missed s.swept → s.deadline ≤ s.stoppedAt + wait)
    (hontime : OnTime delay s e) (hstep : s.step e = some s') :
    Stops maxAge wait delay s' ∧ s'.swept.destructor ≠ .store := by
  have hstopping : s.swept.stopping = true := hsane.orderly.stops hbegun
  have htime := fun hdone ↦ h.time_le hdelay hwait hbegun hdone hmissed hontime
  obtain ⟨hle, ⟨op, r, cache, -, -, rfl⟩ | ⟨e', swept, -, -, hswept, rfl⟩⟩ := step_cases hstep
  · exact ⟨⟨h.deadline, h.sweeper, h.notify, h.join, h.destructor, htime⟩, hbegun⟩
  · have hdeadline : s.deadlineAfter e.time e' = s.deadline := by
      rw [deadlineAfter, if_pos hstopping]
    rcases SweptCache.step_moves hsane.orderly.mutex hswept with ⟨-, hstore, -⟩ |
      ⟨rfl, hnotify, rfl⟩ | ⟨rfl, hjoin, hexited, rfl⟩ | ⟨hmoves, -, hdestructor, -⟩
    · exact absurd hstore hbegun
    · have hnow := hontime.notify hnotify
      have hstored := h.notify hnotify
      refine ⟨⟨hdeadline.trans_le h.deadline, ?_, ?_, ?_, ?_, ?_⟩, by simp [advance]⟩
      · by_cases hblocked : s.swept.sweeper = .blocked
        · simp only [advance, sweeperSinceAfter, stoppedAtAfter, hblocked, if_true, SweepLoop.left]
          omega
        · simp only [advance, sweeperSinceAfter, stoppedAtAfter, hblocked, if_false]
          exact h.sweeper
      · exact fun hnotify' ↦ by cases hnotify'
      · intro _
        simp only [advance, destructorSinceAfter, stoppedAtAfter]
        omega
      · simp only [advance, destructorSinceAfter, stoppedAtAfter]
        omega
      · exact fun _ ↦ htime (by simp [hnotify])
    · have hnow := htime (by simp [hjoin])
      refine ⟨⟨hdeadline.trans_le h.deadline, h.sweeper, ?_, ?_, hnow, fun hdone ↦ absurd rfl hdone⟩,
        by simp [advance]⟩
      · exact fun hnotify ↦ by cases hnotify
      · exact fun hjoin' ↦ by cases hjoin'
    · have hdone : s.swept.destructor ≠ .done := by
        intro hdone
        have hexited := hsane.orderly.joined hdone
        rw [hexited] at hmoves
        exact SweptCache.not_moves_of_exited hmoves
      rw [hstopping] at hmoves
      refine ⟨h.moves hdelay hwait hbegun hdone hstopping hmissed hontime hmoves hdestructor, ?_⟩
      rw [advance, hdestructor]
      exact hbegun

/-- The destructor's first step. -/
theorem Stops.store (hsane : Sane maxAge s) (hdelay : 0 ≤ delay) (hwait : 0 ≤ wait)
    (hfirst : s.swept.destructor = .store) (hstep : s.step e = some s')
    (hbegun : s'.swept.destructor ≠ .store) : Stops maxAge wait delay s' := by
  obtain ⟨hle, ⟨op, r, cache, -, -, rfl⟩ | ⟨e', swept, -, -, hswept, rfl⟩⟩ := step_cases hstep
  · exact absurd hfirst hbegun
  · rcases SweptCache.step_moves hsane.orderly.mutex hswept with ⟨rfl, -, rfl⟩ | ⟨-, hnotify, -⟩ |
      ⟨-, hjoin, -⟩ | ⟨-, -, hdestructor, -⟩
    · have hdeadline := hsane.deadline
      have hsince := hsane.sweeperSince
      have hleft : (s.swept.sweeper.left : ℤ) * delay ≤ 5 * delay :=
        Int.mul_le_mul_of_nonneg_right (Int.ofNat_le.mpr s.swept.sweeper.left_le) hdelay
      have hkept : s.deadlineAfter e.time .store = s.deadline := by
        simp [deadlineAfter, nextDeadline]
      refine ⟨?_, ?_, fun _ ↦ le_rfl, (fun hjoin ↦ by cases hjoin), ?_,
        fun _ ↦ ?_⟩
      · simp only [advance, hkept, stoppedAtAfter]
        omega
      · simp only [advance, sweeperSinceAfter, stoppedAtAfter]
        omega
      · simp only [advance, destructorSinceAfter, stoppedAtAfter]
        omega
      · simp only [advance, stoppedAtAfter]
        omega
    · cases hnotify.symm.trans hfirst
    · cases hjoin.symm.trans hfirst
    · exact absurd (hdestructor.trans hfirst) hbegun

structure Returning (maxAge wait delay : ℤ) (s : TimedCache K V) : Prop where
  sane : Sane maxAge s
  stops : s.swept.destructor ≠ .store → Stops maxAge wait delay s

theorem Returning.step (h : Returning maxAge wait delay s) (hdelay : 0 ≤ delay) (hwait : 0 ≤ wait)
    (hmissed : SweptCache.Missed s.swept → s.deadline ≤ s.stoppedAt + wait)
    (hontime : OnTime delay s e) (hstep : s.step e = some s') :
    Returning maxAge wait delay s' where
  sane := h.sane.step hstep
  stops := by
    intro hbegun'
    by_cases hfirst : s.swept.destructor = .store
    · exact .store h.sane hdelay hwait hfirst hstep hbegun'
    · exact ((h.stops hfirst).step h.sane hdelay hwait hfirst hmissed hontime hstep).1

/-- The destructor takes no longer than `bound`, if it has begun. -/
def ReturnsWithin (bound : ℤ) (s : TimedCache K V) : Prop :=
  s.swept.destructor ≠ .store → s.destructorSince ≤ s.stoppedAt + bound ∧
    (s.swept.destructor ≠ .done → s.now ≤ s.stoppedAt + bound)

omit [DecidableEq K] in
theorem Returning.returnsWithin (h : Returning maxAge wait delay s) :
    s.ReturnsWithin (wait + 6 * delay) := by
  intro hbegun
  have hstops := h.stops hbegun
  rw [← Int.add_assoc]
  exact ⟨hstops.destructor, hstops.now⟩

def NotifiesInTime (s : TimedCache K V) : Step K V → Prop
  | .thread _ e => SweptCache.NotifiesInTime s.swept e
  | _ => True

/-- What a run keeps while every notification arrives in time. -/
structure Notified (maxAge delay : ℤ) (s : TimedCache K V) : Prop
    extends Returning maxAge 0 delay s where
  awake : SweptCache.Awake s.swept

theorem Notified.step (h : Notified maxAge delay s) (hdelay : 0 ≤ delay)
    (hontime : OnTime delay s e) (hnotifies : NotifiesInTime s e) (hstep : s.step e = some s') :
    Notified maxAge delay s' where
  toReturning :=
    h.toReturning.step hdelay le_rfl (fun hmissed ↦ absurd hmissed.2 (h.awake hmissed.1).2)
      hontime hstep
  awake := by
    obtain ⟨-, ⟨op, r, cache, -, -, rfl⟩ | ⟨e', swept, he, -, hswept, rfl⟩⟩ := step_cases hstep
    · exact h.awake
    · rw [he] at hnotifies
      exact (SweptCache.awake_step_iff h.sane.orderly.stops h.awake hswept).mpr hnotifies

omit [DecidableEq K] in
theorem returning_init (c : CoherentCache K V ℤ) (start : ℤ) :
    Returning c.cache.maxAge wait delay (init c.cache start) where
  sane := sane_init c.coherent start
  stops hbegun := absurd rfl hbegun

/-- A destructor whose notification is missed waits for the next timeout of the sweeper, up
to an interval, and one whose notification arrives takes six delays. -/
theorem destructor_returns_in_time (c : CoherentCache K V ℤ) (start : ℤ) (hdelay : 0 ≤ delay)
    {events : List (Step K V)}
    (hontime : EventRun.EachStep step (OnTime delay) (init c.cache start) events)
    (hrun : EventRun.run step (init c.cache start) events = some s) :
    s.ReturnsWithin (sweepInterval c.cache.maxAge + 6 * delay) ∧
      (EventRun.EachStep step NotifiesInTime (init c.cache start) events →
        s.ReturnsWithin (6 * delay)) := by
  have hinterval := sweepInterval_pos c.cache.maxAge
  constructor
  · have hreturning : Returning c.cache.maxAge (sweepInterval c.cache.maxAge) delay s := by
      refine EventRun.run_eachStep_inv ?_ (returning_init c start) hontime hrun
      intro s e s' h hgood hstep
      apply h.step hdelay hinterval.le ?_ hgood hstep
      intro hmissed
      exact (h.stops (by simp [hmissed.1])).deadline
    exact hreturning.returnsWithin
  · intro hnotifies
    have hgood : EventRun.EachStep step (fun s e ↦ OnTime delay s e ∧ NotifiesInTime s e)
        (init c.cache start) events := fun past e hpast mid hmid hpossible ↦
      ⟨hontime past e hpast mid hmid hpossible, hnotifies past e hpast mid hmid hpossible⟩
    have hnotified : Notified c.cache.maxAge delay s := by
      refine EventRun.run_eachStep_inv (fun _ _ _ h hgood hstep ↦ ?_) ?_ hgood hrun
      · exact h.step hdelay hgood.1 hgood.2 hstep
      · exact ⟨returning_init c start, fun hjoin ↦ by cases hjoin⟩
    have hwithin := hnotified.returnsWithin
    rw [Int.zero_add] at hwithin
    exact hwithin

/-- The notification comes before the sweeper blocks. -/
def waitsForTheTimeout : List (Step ℕ ℕ) :=
  [.thread 0 .lock, .thread 0 .test, .thread 0 .evaluate, .thread 0 .store, .thread 0 .notifyAll,
    .thread 0 .block, .thread 60000000000 (.wake true), .thread 60000000000 .lock,
    .thread 60000000000 .evaluate, .thread 60000000000 .check, .thread 60000000000 .join]

theorem destructor_returns_in_time_after_the_timeout :
    ∃ s, EventRun.run step (init (empty 2 4 (by decide) : CoherentCache ℕ ℕ ℤ).cache 0)
        waitsForTheTimeout = some s ∧ s.swept.destructor = .done ∧
      s.destructorSince - s.stoppedAt = 60000000000 ∧
      s.ReturnsWithin (sweepInterval 2 + 6 * 0) := by
  obtain ⟨s, hrun, hdone, htime⟩ : ∃ s,
      EventRun.run step (init (empty 2 4 (by decide) : CoherentCache ℕ ℕ ℤ).cache 0)
        waitsForTheTimeout = some s ∧ s.swept.destructor = .done ∧
        s.destructorSince - s.stoppedAt = 60000000000 := ⟨_, rfl, rfl, rfl⟩
  have hontime : EventRun.EachStep step (OnTime 0)
      (init (empty 2 4 (by decide) : CoherentCache ℕ ℕ ℤ).cache 0) waitsForTheTimeout :=
    EventRun.eachStep_of_check rfl
  exact ⟨s, hrun, hdone, htime,
    (destructor_returns_in_time (empty 2 4 (by decide)) 0 le_rfl hontime hrun).1⟩

end TimedCache

end CurrencyConverter
