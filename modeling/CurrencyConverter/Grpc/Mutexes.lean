import CurrencyConverter.Cache.Retention
import CurrencyConverter.Cache.Statements
import CurrencyConverter.Grpc.Provenance
import CurrencyConverter.Library.CriticalSection

/-!
# The server under its mutexes

The server once more, with every call of a cache run statement by statement under the
mutex of that cache.  Each of its runs is one of the server of whole calls, and as the
clock is read inside the mutex, the readings of one cache come in order.
-/

namespace CurrencyConverter

open AtomicProgram CoherentCache CriticalSection TimeAndSizeBoundedCache

variable {D : Type}

abbrev RawCache (D : Type) (c : CacheId) := TimeAndSizeBoundedCache Str (Stored D c) ℤ

namespace Server

def returns {c : CacheId} (place : Control Str (Stored D c)) : (a : Action D) → Option (Reply a)
  | .cacheGet c' _ =>
      match place with
      | .done result => if h : c = c' then some (h ▸ result) else none
      | _ => none
  | .cachePut _ _ _ =>
      match place with
      | .done _ => some ()
      | _ => none
  | .call _ => none
  | .systemClock => none

/-- The calls of a cache are its sections. -/
def sections (D : Type) : Sections (Action D) Reply (Tick D) (RawCache D)
    (fun c ↦ Control Str (Stored D c)) where
  begins
    | .cacheGet c key => some ⟨c, .getFind key⟩
    | .cachePut c key value => some ⟨c, .putFind key value⟩
    | .call _ => none
    | .systemClock => none
  tends _ := .sweepBegin
  stmt w place f := f.stmt w.now place
  returns := returns
  ended
    | .done _ => true
    | _ => false
  plain w
    | .cacheGet _ _ => none
    | .cachePut _ _ _ => ()
    | .call query => w.upstream _ query
    | .systemClock => w.today

/-- The readings of a sweep are those of its statements. -/
def Drawn (c : CacheId) (ws : List (Tick D)) (b : Sweep) : Prop :=
  b.1 = c ∧ ∀ i, b.2 i ∈ ws.map Tick.now

def view {c : CacheId} (cache : Cache D c) : RawCache D c := cache.cache

section Sections

variable {c : CacheId} {cache : Cache D c} {ws : List (Tick D)}
  {start place : Control Str (Stored D c)} {f : RawCache D c}

/-- A description of a call that each statement keeps describes the section. -/
theorem at_of_within {At : List ℤ → Control Str (Stored D c) → RawCache D c → Prop}
    (hstart : At [] start cache.cache)
    (hstmt : ∀ {ts place f}, At ts place f → ∀ t, (∃ result, place = .done result) ∨
      ∃ place' f', stmt t f place = some (place', f') ∧ At (t :: ts) place' f')
    (h : (sections D).Within start (view cache) ws place f) : At (ws.map Tick.now) place f := by
  refine Sections.Within.preserved (K := sections D) (l := c)
    (fun ws place f ↦ At (ws.map Tick.now) place f) hstart ?_ h
  intro ws place f w place' f' hat hnext
  rcases hstmt hat w.now with ⟨result, rfl⟩ | ⟨_, _, hnext', hat'⟩
  · cases hnext
  · cases hnext.symm.trans hnext'
    exact hat'

theorem getAt_of_within {key : Str}
    (h : (sections D).Within (.getFind key) (view cache) ws place f) :
    GetAt cache.cache key (ws.map Tick.now) place f :=
  at_of_within .find (fun hat ↦ hat.stmt cache.coherent.toLinked) h

theorem putAt_of_within {key : Str} {value : Stored D c}
    (h : (sections D).Within (.putFind key value) (view cache) ws place f) :
    PutAt cache.cache key value (ws.map Tick.now) place f :=
  at_of_within .find (fun hat ↦ hat.stmt cache.coherent.toLinked) h

theorem sweepAt_of_within (h : (sections D).Within .sweepBegin (view cache) ws place f) :
    SweepAt cache.cache (ws.map Tick.now) place f :=
  at_of_within .begin (fun hat ↦ hat.stmt cache.coherent.toLinked) h

end Sections

theorem returns_cacheGet {c : CacheId} {place : Control Str (Stored D c)} {key : Str}
    {r : Option (Stored D c)} :
    returns place (.cacheGet c key) = some r ↔ place = .done r := by
  cases place with
  | done result => simp [returns]
  | _ => simp [returns]

theorem returns_cachePut {c c' : CacheId} {place : Control Str (Stored D c)} {key : Str}
    {value : Stored D c'} {r : Unit} :
    returns place (.cachePut c' key value) = some r ↔ ∃ result, place = .done result := by
  cases place with
  | done result => simp [returns]
  | _ => simp [returns]

theorem ended_iff {c : CacheId} {place : Control Str (Stored D c)} :
    (sections D).ended place = true ↔ ∃ result, place = .done result := by
  cases place with
  | done result => simp [sections]
  | _ => simp [sections]

/-- The sections of the caches do what the calls of the server do. -/
theorem implements [Double D] : (sections D).Implements (machine D) view Drawn where
  plain := by
    rintro (_ | _ | _ | _) hbegins w caches
    · cases hbegins
    · cases hbegins
    · rfl
    · rfl
  act_defined := by
    rintro (⟨c, key⟩ | ⟨c, key, value⟩ | _ | _) l c₀ place cache ws f hbegins hwithin hr w
    · cases hbegins
      rcases (getAt_of_within hwithin).stmt cache.coherent.toLinked w.now with
        ⟨result, rfl⟩ | ⟨_, _, hnext, _⟩
      · cases hr.symm.trans (returns_cacheGet.mpr rfl)
      · exact ne_of_eq_of_ne hnext (by simp)
    · cases hbegins
      rcases (putAt_of_within hwithin).stmt cache.coherent.toLinked w.now with
        ⟨result, rfl⟩ | ⟨_, _, hnext, _⟩
      · cases hr.symm.trans (returns_cachePut (r := ()).mpr ⟨result, rfl⟩)
      · exact ne_of_eq_of_ne hnext (by simp)
    · cases hbegins
    · cases hbegins
  act := by
    rintro (⟨c, key⟩ | ⟨c, key, value⟩ | _ | _) l c₀ place caches ws f r hbegins hwithin hr
    · cases hbegins
      obtain rfl := returns_cacheGet.mp hr
      obtain ⟨now, hnow, hget⟩ := (getAt_of_within hwithin).get_eq
      obtain ⟨w, hw, rfl⟩ := List.mem_map.mp hnow
      have hexec : (caches c).cache.exec (.get w.now key) = some (r, f) := hget
      obtain ⟨hreply, hcache⟩ := (caches c).step_of_exec hexec
      exact ⟨w, hw, _, Prod.ext hreply rfl, hcache⟩
    · cases hbegins
      obtain ⟨result, rfl⟩ := returns_cachePut.mp hr
      obtain ⟨now, hnow, hput⟩ := (putAt_of_within hwithin).put_eq
      obtain ⟨w, hw, rfl⟩ := List.mem_map.mp hnow
      have hexec : (caches c).cache.exec (.put w.now key value) = some (none, f) := by
        simp [exec, hput]
      exact ⟨w, hw, _, rfl, ((caches c).step_of_exec hexec).2⟩
    · cases hbegins
    · cases hbegins
  tend_defined := by
    intro c place cache ws f hwithin hended w
    rcases (sweepAt_of_within hwithin).stmt cache.coherent.toLinked w.now with
      ⟨result, rfl⟩ | ⟨_, _, hnext, _⟩
    · cases hended
    · exact ne_of_eq_of_ne hnext (by simp)
  tend := by
    intro c place caches ws f hwithin hended
    obtain ⟨result, rfl⟩ := ended_iff.mp hended
    obtain ⟨clock, hclock, rfl⟩ := (sweepAt_of_within hwithin).sweepExpired_eq
    have hexec : (caches c).cache.exec (.sweepExpired clock) =
        some (none, (caches c).cache.sweepExpired clock) := rfl
    exact ⟨(c, clock), ⟨rfl, hclock⟩, _, rfl, ((caches c).step_of_exec hexec).2⟩

/-- The readings of a call are those of the statements of its section. -/
def ReadsWithin {c : CacheId} (ws : List (Tick D))
    (op : TimeAndSizeBoundedCache.Op Str (Stored D c) ℤ) : Prop :=
  ∀ t, CoherentCache.Reads op t → t ∈ ws.map Tick.now

abbrev LockedEvent (D : Type) :=
  CriticalSection.Event (Action D) Reply (Outcome D) (Request D) CacheId (Tick D)

theorem readsWithin_of_matches {c : CacheId} {e : LockedEvent D} {e' : ServerEvent D}
    (h : Matches Drawn e e') :
    (∃ ws op, (sections D).on c e = some ws ∧ opOf c e' = some op ∧ ReadsWithin ws op) ∨
      (sections D).on c e = none ∧ opOf c e' = none := by
  cases h with
  | started => exact .inr ⟨rfl, rfl⟩
  | responded => exact .inr ⟨rfl, rfl⟩
  | @acted i ws w hw a r =>
      have hnow : w.now ∈ ws.map Tick.now := List.mem_map_of_mem hw
      cases a with
      | cacheGet c' key =>
          by_cases hc : c' = c
          · refine .inl ⟨ws, .get w.now key, if_pos hc, if_pos hc, ?_⟩
            rintro t rfl
            exact hnow
          · exact .inr ⟨if_neg hc, if_neg hc⟩
      | cachePut c' key value =>
          by_cases hc : c' = c
          · refine .inl ⟨ws, .put w.now key (hc ▸ value), if_pos hc, dif_pos hc, ?_⟩
            rintro t rfl
            exact hnow
          · exact .inr ⟨if_neg hc, dif_neg hc⟩
      | call query => exact .inr ⟨rfl, rfl⟩
      | systemClock => exact .inr ⟨rfl, rfl⟩
  | @tended c' ws b hdrawn =>
      obtain ⟨c'', clock⟩ := b
      obtain ⟨rfl, hclock⟩ := hdrawn
      by_cases hc : c'' = c
      · refine .inl ⟨ws, .sweepExpired clock, if_pos hc, if_pos hc, ?_⟩
        rintro t ⟨i, rfl⟩
        exact hclock i
      · exact .inr ⟨if_neg hc, if_neg hc⟩

/-- The calls of a cache are its sections, in the same order. -/
theorem readsWithin_of_logs (c : CacheId) {log : List (LockedEvent D)} {log' : Log D}
    (h : List.Forall₂ (Matches Drawn) log log') :
    List.Forall₂ ReadsWithin (log.filterMap ((sections D).on c)) (cacheOps c log') := by
  induction h with
  | nil => exact .nil
  | cons he _ ih =>
      rcases readsWithin_of_matches (c := c) he with ⟨ws, op, hon, hop, hreads⟩ | ⟨hon, hop⟩
      · rw [cacheOps, List.filterMap_cons_some hon, List.filterMap_cons_some hop]
        exact .cons hreads ih
      · rw [cacheOps, List.filterMap_cons_none hon, List.filterMap_cons_none hop]
        exact ih

theorem nonDecreasing_of_inOrder {c : CacheId} {sections : List (List (Tick D))}
    {ops : List (TimeAndSizeBoundedCache.Op Str (Stored D c) ℤ)}
    (h : List.Forall₂ ReadsWithin sections ops) (horder : Sections.InOrder Tick.now sections) :
    NonDecreasing ops := by
  induction h with
  | nil => exact List.Pairwise.nil
  | @cons ws op sections ops hreads hrest ih =>
      obtain ⟨hfirst, htail⟩ := List.pairwise_cons.mp horder
      refine List.pairwise_cons.mpr ⟨?_, ih htail⟩
      intro earlier hearlier s t hs ht
      obtain ⟨i, hi, rfl⟩ := List.mem_iff_getElem.mp hearlier
      have hi' : i < sections.length := hrest.length_eq ▸ hi
      have hreads' : ReadsWithin sections[i] ops[i] := hrest.get hi' hi
      obtain ⟨w, hw, rfl⟩ := List.mem_map.mp (hreads' s hs)
      obtain ⟨w', hw', rfl⟩ := List.mem_map.mp (hreads t ht)
      exact hfirst _ (List.getElem_mem hi') w hw w' hw'

end Server

/-- The scheduler's choices when every statement under a mutex is one step. -/
abbrev LockedSchedule (D : Type) := List (Choice (Request D) (Tick D) (CacheId × Tick D))

abbrev LockedPool (D : Type) :=
  CriticalSection.Pool (Action D) Reply (Outcome D) (Request D) (Tick D) (RawCache D)
    (fun c ↦ Control Str (Stored D c))

/-- The server of statements, `none` once one of them is undefined. -/
def Limits.lockedRun [Double D] (limits : Limits) (schedule : LockedSchedule D) :
    Option (LockedPool D) :=
  (Server.sections D).run (CurrencyServiceImpl.serve (D := D))
    (fun c ↦ (limits.empty D c).cache) schedule

/-- `steady_clock`: no step reads an earlier time than a step before it. -/
def SteadyClock (schedule : LockedSchedule D) : Prop :=
  (schedule.filterMap Sections.world).Pairwise fun later earlier ↦ earlier.now ≤ later.now

variable [Double D]

/-- No statement of any run is undefined, and the run is one of the server of whole calls:
the same threads in the same places, the same responses in the same order, and in each cache
whose mutex is free the same entries.  Under a steady clock the calls of a cache read it in
order. -/
theorem mutexes_make_calls_atomic (limits : Limits) (schedule : LockedSchedule D) :
    ∃ pool atomic, limits.lockedRun schedule = some pool ∧
      pool.threads = (limits.run atomic).threads ∧
      List.Forall₂ (Matches Server.Drawn) pool.log (limits.run atomic).log ∧
      (∀ c, pool.holders c = none → pool.cells c = ((limits.run atomic).shared c).cache) ∧
      (SteadyClock schedule → ∀ c, NonDecreasing (cacheOps c (limits.run atomic).log)) := by
  obtain ⟨pool, atomic, hrun, hsim⟩ :=
    Sections.simulates_run (Server.implements (D := D)) (limits.empty D) schedule
  refine ⟨pool, atomic, hrun, hsim.threads, hsim.log, hsim.free, fun hclock c ↦ ?_⟩
  obtain ⟨-, horder⟩ := (Server.sections D).inOrder_run hrun hclock c
  apply Server.nonDecreasing_of_inOrder (Server.readsWithin_of_logs c hsim.log)
  unfold Sections.sections at horder
  split at horder
  · exact horder
  · exact (List.pairwise_cons.mp horder).2

/-- Thread 0 misses the list of the empty server, statement by statement, while a sweep of
the same cache and thread 1 wait for the mutex. -/
def waitingForTheList : LockedSchedule ℚ :=
  let t := tickAt 0 (online (9 / 10) (str "2024-03-01"))
  [.act 0 t, .act 1 t, .act 0 t, .tend (.currencies, t), .act 0 t, .start usdToEur,
    .start usdToEur]

theorem mutexes_make_calls_atomic_while_waiting :
    ∃ pool atomic, Limits.builtIn.lockedRun waitingForTheList = some pool ∧
      pool.threads = (Limits.builtIn.run atomic).threads ∧
      List.Forall₂ (Matches Server.Drawn) pool.log (Limits.builtIn.run atomic).log ∧
      (∀ c, pool.holders c = none →
        pool.cells c = ((Limits.builtIn.run atomic).shared c).cache) ∧
      ∀ c, NonDecreasing (cacheOps c (Limits.builtIn.run atomic).log) := by
  obtain ⟨pool, atomic, hrun, hthreads, hlog, hfree, hordered⟩ :=
    mutexes_make_calls_atomic .builtIn waitingForTheList
  have hclock : SteadyClock waitingForTheList := by
    unfold SteadyClock waitingForTheList
    decide
  exact ⟨pool, atomic, hrun, hthreads, hlog, hfree, hordered hclock⟩

/-! ## How long a mutex is held -/

/-- The most statements a section of a cache can take. -/
def Limits.maxStatements (limits : Limits) (c : CacheId) : ℕ := max 8 (3 * limits.maxElements c + 2)

theorem maxElements_shared (limits : Limits) (schedule : Schedule D) (c : CacheId) :
    ((limits.run schedule).shared c).cache.maxElements = limits.maxElements c := by
  rw [shared_run, CoherentCache.after_maxElements]
  rfl

omit [Double D] in
theorem length_le_of_within {c : CacheId} {cache : Cache D c}
    {start place : Control Str (Stored D c)} {ws : List (Tick D)} {f : RawCache D c}
    {threads : List (Request D × Option (Prog (Action D) Reply (Outcome D)))}
    {who : Option ℕ} (hbegan : (Server.sections D).Began threads c start who)
    (hwithin : (Server.sections D).Within start (Server.view cache) ws place f) :
    ws.length ≤ max 8 (3 * cache.cache.maxElements + 2) := by
  have hlen : (ws.map Tick.now).length = ws.length := List.length_map ..
  cases who with
  | none =>
      cases hbegan
      have hsweep := (Server.sweepAt_of_within hwithin).length_le
      have hsize := cache.coherent.size_le
      omega
  | some i =>
      obtain ⟨q, a, next, -, hbegins⟩ := hbegan
      cases a with
      | cacheGet c' key =>
          cases hbegins
          have hget := (Server.getAt_of_within hwithin).length_le
          omega
      | cachePut c' key value =>
          cases hbegins
          have hput := (Server.putAt_of_within hwithin).length_le
          omega
      | call query => cases hbegins
      | systemClock => cases hbegins

/-- Whoever holds the mutex of a cache releases it within a number of its own steps that the
capacity bounds, whatever the other threads do meanwhile. -/
theorem mutex_is_released (limits : Limits) (schedule later : LockedSchedule D)
    {pool : LockedPool D} (hrun : limits.lockedRun schedule = some pool) {c : CacheId}
    {h : Holder (Control Str (Stored D c)) (Tick D)} (hheld : pool.holders c = some h)
    (hsteps : limits.maxStatements c < later.countP (Sections.ofThread c h.who)) :
    ∃ mid, mid <:+ later ∧ ∃ p, limits.lockedRun (mid ++ schedule) = some p ∧
      p.holders c = none := by
  obtain ⟨pool', hrun', hreleased | ⟨h', hheld', -, hlen⟩⟩ :=
    Sections.released_or_further (Server.implements (D := D)) (limits.empty D) hrun hheld later
  · exact hreleased
  · obtain ⟨pool'', atomic, hrun'', hsim⟩ :=
      Sections.simulates_run (Server.implements (D := D)) (limits.empty D) (later ++ schedule)
    cases hrun'.symm.trans hrun''
    obtain ⟨start, hbegan, hwithin⟩ := hsim.held c h' hheld'
    have hbound : h'.ws.length ≤ limits.maxStatements c := by
      rw [Limits.maxStatements, ← maxElements_shared limits atomic c]
      exact length_le_of_within hbegan hwithin
    omega

theorem mutex_is_released_after_waiting :
    ∃ mid, mid <:+ List.replicate 27 (.act 0 (tickAt 0 offline)) ∧
      ∃ p, Limits.builtIn.lockedRun (mid ++ waitingForTheList.tail) = some p ∧
        p.holders .currencies = none := by
  obtain ⟨pool, hrun⟩ : ∃ pool, Limits.builtIn.lockedRun waitingForTheList.tail = some pool :=
    ⟨_, rfl⟩
  obtain ⟨h, hheld⟩ : ∃ h, pool.holders .currencies = some h ∧ h.who = some 0 := by
    cases hrun
    exact ⟨_, rfl, rfl⟩
  apply mutex_is_released .builtIn waitingForTheList.tail _ hrun hheld.1
  rw [hheld.2]
  decide

end CurrencyConverter
