import CurrencyConverter.Cache.Runs

/-!
# Caches of two capacities

Looked up alike, and with nothing old enough to expire, a small cache holds the
most recent keys of a large one.  Raising `max_elements` therefore costs no hit.
-/

namespace CurrencyConverter

open RecencyList TimeAndSizeBoundedCache

namespace CoherentCache

variable {K V T : Type} [DecidableEq K]

omit [DecidableEq K] in
abbrev keys (c : CoherentCache K V T) : List K := c.entries.map Entry.key

/-- What one lookup of the services reads of the clock, for its `get` and for the
`put` after a miss, and what it fetches on a miss. -/
structure Reading (V T : Type) where
  now : T
  refill : T
  fetched : V

variable [Ticks T]

/-- The lookup of the services: `get`, and on a miss a `put` of what was fetched. -/
def lookup (c : CoherentCache K V T) (k : K) (r : Reading V T) :
    Option V × CoherentCache K V T :=
  match (c.step (.get r.now k)).1 with
  | some v => (some v, (c.step (.get r.now k)).2)
  | none => (none, ((c.step (.get r.now k)).2.step (.put r.refill k r.fetched)).2)

/-- The cache after lookups, the latest first. -/
def lookups (c : CoherentCache K V T) : List (K × Reading V T) → CoherentCache K V T
  | [] => c
  | (k, r) :: earlier => ((c.lookups earlier).lookup k r).2

/-- A lookup among live entries puts its key first and cuts at the capacity, and hits
what is there. -/
theorem keys_lookup (c : CoherentCache K V T) {k : K} {r : Reading V T}
    (hlive : ∀ e ∈ c.entries, isExpired c.cache.maxAge r.now e.insertedAt = false) :
    (c.lookup k r).2.keys = (k :: c.keys.filter (· ≠ k)).take c.cache.maxElements ∧
      (k ∈ c.keys ↔ ∃ v, (c.lookup k r).1 = some v) := by
  rcases c.step_get r.now k with ⟨hf, hr, hl⟩ | ⟨e, hf, hx, _⟩ | ⟨e, hf, _, hr, hl⟩
  · have habsent : k ∉ c.keys := by
      intro hk
      obtain ⟨e, he, hek⟩ := List.mem_map.mp hk
      exact find_eq_none.mp hf e he hek
    have hkey : ((c.step (.get r.now k)).2.cache.newEntry r.refill k r.fetched).key = k := rfl
    simp only [lookup, hr, keys]
    rw [step_put, List.map_take, map_touch, hkey, step_maxElements, hl]
    exact ⟨rfl, by simp [habsent]⟩
  · obtain ⟨he, _⟩ := mem_of_find hf
    rw [hlive e he] at hx
    cases hx
  · obtain ⟨he, hek⟩ := mem_of_find hf
    have hsize := (c.step (.get r.now k)).2.coherent.size_le
    rw [step_maxElements] at hsize
    have hkeys : (c.step (.get r.now k)).2.keys = k :: c.keys.filter (· ≠ k) := by
      rw [keys, hl, map_touch, hek]
    have hcut : (c.step (.get r.now k)).2.keys.length ≤ c.cache.maxElements := by
      simpa [keys] using hsize
    simp only [lookup, hr]
    refine ⟨?_, iff_of_true (List.mem_map.mpr ⟨e, he, hek⟩) ⟨e.value, rfl⟩⟩
    rw [← hkeys, List.take_of_length_le hcut]

@[simp] theorem lookup_maxAge (c : CoherentCache K V T) (k : K) (r : Reading V T) :
    (c.lookup k r).2.cache.maxAge = c.cache.maxAge := by
  unfold lookup
  split <;> simp

@[simp] theorem lookup_maxElements (c : CoherentCache K V T) (k : K) (r : Reading V T) :
    (c.lookup k r).2.cache.maxElements = c.cache.maxElements := by
  unfold lookup
  split <;> simp

@[simp] theorem lookups_maxAge (c : CoherentCache K V T) (run : List (K × Reading V T)) :
    (c.lookups run).cache.maxAge = c.cache.maxAge := by
  induction run with
  | nil => rfl
  | cons x earlier ih => simp [lookups, ih]

@[simp] theorem lookups_maxElements (c : CoherentCache K V T) (run : List (K × Reading V T)) :
    (c.lookups run).cache.maxElements = c.cache.maxElements := by
  induction run with
  | nil => rfl
  | cons x earlier ih => simp [lookups, ih]

/-! ## Lookups within one age -/

/-- Both readings fall into the `maxAge` minutes from `t` on. -/
def Reading.Within (r : Reading V ℤ) (t maxAge : ℤ) : Prop :=
  t ≤ r.now ∧ r.now ≤ t + maxAge * 60000000000 ∧
    t ≤ r.refill ∧ r.refill ≤ t + maxAge * 60000000000

theorem mem_lookup {c : CoherentCache K V ℤ} {k : K} {r : Reading V ℤ} {e : Entry K V ℤ}
    (he : e ∈ (c.lookup k r).2.entries) : e ∈ c.entries ∨ e.insertedAt = r.refill := by
  have hget : ∀ x ∈ (c.step (.get r.now k)).2.entries, x ∈ c.entries := by
    intro x hx
    rcases mem_step _ hx with ⟨hmem, _⟩ | h
    · exact hmem
    · cases h
  unfold lookup at he
  split at he
  · exact Or.inl (hget e he)
  · rcases mem_step _ he with ⟨hmem, _⟩ | h
    · exact Or.inl (hget e hmem)
    · exact Or.inr (Op.put.inj h).1.symm

theorem insertedAt_of_lookups {maxAge t : ℤ} {maxElements : ℕ} {hpos : 0 < maxElements}
    {run : List (K × Reading V ℤ)} (hrun : ∀ x ∈ run, x.2.Within t maxAge) :
    ∀ e ∈ ((empty maxAge maxElements hpos).lookups run).entries, t ≤ e.insertedAt := by
  induction run with
  | nil => simp [lookups]
  | cons x earlier ih =>
      intro e he
      rcases mem_lookup he with hmem | hnow
      · exact ih (fun y hy ↦ hrun y (List.mem_cons_of_mem x hy)) e hmem
      · rw [hnow]
        exact (hrun x List.mem_cons_self).2.2.1

theorem live_of_within {maxAge t : ℤ} {maxElements : ℕ} {hpos : 0 < maxElements}
    {run : List (K × Reading V ℤ)} (hrun : ∀ x ∈ run, x.2.Within t maxAge) {r : Reading V ℤ}
    (hr : r.Within t maxAge) :
    ∀ e ∈ ((empty maxAge maxElements hpos).lookups run).entries,
      isExpired ((empty maxAge maxElements hpos).lookups run).cache.maxAge r.now e.insertedAt =
        false := by
  intro e he
  have hinserted := insertedAt_of_lookups hrun e he
  have hage : ((empty (K := K) (V := V) (T := ℤ) maxAge maxElements hpos).lookups
      run).cache.maxAge = maxAge := lookups_maxAge _ run
  rw [hage, isExpired_eq_false_iff]
  have := hr.2.1
  omega

/-- A run of lookups on two caches: each has its own readings and fetches. -/
abbrev Twice (K V : Type) := List (K × Reading V ℤ × Reading V ℤ)

def onSmall (run : Twice K V) : List (K × Reading V ℤ) := run.map fun x ↦ (x.1, x.2.1)

def onLarge (run : Twice K V) : List (K × Reading V ℤ) := run.map fun x ↦ (x.1, x.2.2)

def SpanWithin (run : Twice K V) (t maxAge : ℤ) : Prop :=
  ∀ x ∈ run, x.2.1.Within t maxAge ∧ x.2.2.Within t maxAge

section TwoCaches

variable {maxAge t : ℤ} {n m : ℕ} (hn : 0 < n) (hm : 0 < m) {run : Twice K V}

theorem live_small (hrun : SpanWithin run t maxAge) {r : Reading V ℤ} (hr : r.Within t maxAge) :
    ∀ e ∈ ((empty maxAge n hn).lookups (onSmall run)).entries,
      isExpired ((empty maxAge n hn).lookups (onSmall run)).cache.maxAge r.now e.insertedAt =
        false := by
  apply live_of_within _ hr
  intro x hx
  obtain ⟨y, hy, rfl⟩ := List.mem_map.mp hx
  exact (hrun y hy).1

theorem live_large (hrun : SpanWithin run t maxAge) {r : Reading V ℤ} (hr : r.Within t maxAge) :
    ∀ e ∈ ((empty maxAge m hm).lookups (onLarge run)).entries,
      isExpired ((empty maxAge m hm).lookups (onLarge run)).cache.maxAge r.now e.insertedAt =
        false := by
  apply live_of_within _ hr
  intro x hx
  obtain ⟨y, hy, rfl⟩ := List.mem_map.mp hx
  exact (hrun y hy).2

/-- The keys of the smaller cache are the first keys of the larger one. -/
theorem keys_small_eq_take (hnm : n ≤ m) (hrun : SpanWithin run t maxAge) :
    ((empty maxAge n hn).lookups (onSmall run)).keys =
      ((empty maxAge m hm).lookups (onLarge run)).keys.take n := by
  induction run with
  | nil => simp [onSmall, onLarge, lookups, keys]
  | cons x earlier ih =>
      obtain ⟨k, r, r'⟩ := x
      have hearlier : SpanWithin earlier t maxAge := fun y hy ↦ hrun y (List.mem_cons_of_mem _ hy)
      obtain ⟨hr, hr'⟩ := hrun _ List.mem_cons_self
      have hsmall := (keys_lookup _ (live_small hn hearlier hr) (k := k)).1
      have hlarge := (keys_lookup _ (live_large hm hearlier hr') (k := k)).1
      have hd : ((empty (K := K) (V := V) maxAge m hm).lookups (onLarge earlier)).keys.Nodup :=
        CoherentCache.coherent _ |>.distinct
      rw [lookups_maxElements] at hsmall hlarge
      calc ((empty maxAge n hn).lookups (onSmall ((k, r, r') :: earlier))).keys
          = (k :: ((empty maxAge n hn).lookups (onSmall earlier)).keys.filter (· ≠ k)).take n :=
            hsmall
        _ = (k :: (((empty maxAge m hm).lookups (onLarge earlier)).keys.take n).filter
              (· ≠ k)).take n := by rw [ih hearlier]
        _ = (k :: ((empty maxAge m hm).lookups (onLarge earlier)).keys.filter (· ≠ k)).take n :=
            take_use_take hd n
        _ = ((k :: ((empty maxAge m hm).lookups (onLarge earlier)).keys.filter
              (· ≠ k)).take m).take n := by rw [List.take_take, Nat.min_eq_left hnm]
        _ = (((empty maxAge m hm).lookups (onLarge ((k, r, r') :: earlier))).keys).take n := by
            exact congrArg (List.take n) hlarge.symm

end TwoCaches

/-- A lookup that hits in the smaller cache hits in the larger one, and the keys of the
one are the first keys of the other. -/
theorem larger_capacity_keeps_hits {n m : ℕ} (hn : 0 < n) (hnm : n ≤ m) {maxAge t : ℤ}
    {run : Twice K V} (hrun : SpanWithin run t maxAge) :
    ((empty maxAge n hn).lookups (onSmall run)).keys =
      ((empty maxAge m (hn.trans_le hnm)).lookups (onLarge run)).keys.take n ∧
    ∀ k (r r' : Reading V ℤ), r.Within t maxAge → r'.Within t maxAge → ∀ v,
      (((empty maxAge n hn).lookups (onSmall run)).lookup k r).1 = some v →
        ∃ v', (((empty maxAge m (hn.trans_le hnm)).lookups (onLarge run)).lookup k r').1 =
          some v' := by
  have hkeys := keys_small_eq_take hn (hn.trans_le hnm) hnm hrun
  refine ⟨hkeys, fun k r r' hr hr' v hhit ↦ ?_⟩
  have hsmall := (keys_lookup _ (live_small hn hrun hr) (k := k)).2.mpr ⟨v, hhit⟩
  rw [hkeys] at hsmall
  exact (keys_lookup _ (live_large (hn.trans_le hnm) hrun hr') (k := k)).2.mp
    (List.mem_of_mem_take hsmall)

/-- Lookups of 2, 1, 3 and 1, the latest first. -/
def fourLookups : Twice ℕ ℕ :=
  [(1, ⟨4, 4, 10⟩, ⟨4, 5, 10⟩), (3, ⟨2, 3, 30⟩, ⟨2, 3, 30⟩), (1, ⟨1, 1, 10⟩, ⟨1, 1, 10⟩),
    (2, ⟨0, 1, 20⟩, ⟨0, 1, 20⟩)]

/-- The third lookup, of 3, misses and pushes 2 out of the smaller cache; the fourth, of 1
again, hits in both. -/
theorem larger_capacity_keeps_hits_of_two :
    ((empty 1 2 (by decide)).lookups (onSmall fourLookups) : CoherentCache ℕ ℕ ℤ).keys = [1, 3] ∧
    (((empty 1 2 (by decide)).lookups (onSmall (fourLookups.drop 1)) :
      CoherentCache ℕ ℕ ℤ).lookup 1 ⟨4, 4, 10⟩).1 = some 10 ∧
    ∃ v, (((empty 1 3 (by decide)).lookups (onLarge (fourLookups.drop 1)) :
      CoherentCache ℕ ℕ ℤ).lookup 1 ⟨4, 5, 10⟩).1 = some v := by
  have hrun : SpanWithin fourLookups 0 1 := by
    simp [fourLookups, SpanWithin, Reading.Within]
  have hearlier : SpanWithin (fourLookups.drop 1) 0 1 :=
    fun x hx ↦ hrun x (List.mem_of_mem_drop hx)
  have hhit : (((empty 1 2 (by decide)).lookups (onSmall (fourLookups.drop 1)) :
      CoherentCache ℕ ℕ ℤ).lookup 1 ⟨4, 4, 10⟩).1 = some 10 := by
    rfl
  refine ⟨?_, hhit, ?_⟩
  · rw [(larger_capacity_keeps_hits (m := 3) (by decide) (by decide) hrun).1]
    rfl
  · exact (larger_capacity_keeps_hits (m := 3) (by decide) (by decide) hearlier).2 1 ⟨4, 4, 10⟩
      ⟨4, 5, 10⟩ (by simp [Reading.Within]) (by simp [Reading.Within]) 10 hhit

end CoherentCache

end CurrencyConverter
