import CurrencyConverter.Cache.Runs
import Mathlib.Tactic.NormNum

/-!
# Cache limits from the configuration

`AppConfig` reads both limits as `int`.  The capacity is cast to `size_t`
before the constructor tests it, and the age is scaled to nanoseconds inside
the comparison of `isExpired`.
-/

namespace CurrencyConverter

open RecencyList TimeAndSizeBoundedCache

/-- The integers found under the keys of `Poco::Util::LayeredConfiguration`. -/
abbrev LayeredConfiguration := String → Option Int32

namespace LayeredConfiguration

def getInt (config : LayeredConfiguration) (key : String) (default : Int32) : Int32 :=
  (config key).getD default

def setInt (config : LayeredConfiguration) (key : String) (n : Int32) : LayeredConfiguration :=
  Function.update config key (some n)

end LayeredConfiguration

def toSizeT (n : Int32) : UInt64 := n.toInt64.toUInt64

namespace AppConfig

def historyCacheMaxAge (config : LayeredConfiguration) : ℤ :=
  (config.getInt "cache.history.max_age_minutes" 1440).toInt

def historyCacheMaxElements (config : LayeredConfiguration) : UInt64 :=
  toSizeT (config.getInt "cache.history.max_elements" 5000)

def latestRateCacheMaxAge (config : LayeredConfiguration) : ℤ :=
  (config.getInt "cache.latest_rate.max_age_minutes" 15).toInt

def latestRateCacheMaxElements (config : LayeredConfiguration) : UInt64 :=
  toSizeT (config.getInt "cache.latest_rate.max_elements" 500)

end AppConfig

variable {K V T : Type}

def historyCache (config : LayeredConfiguration) :
    Except InvalidArgument (TimeAndSizeBoundedCache K V T) :=
  construct (AppConfig.historyCacheMaxAge config) (AppConfig.historyCacheMaxElements config).toNat

def latestRateCache (config : LayeredConfiguration) :
    Except InvalidArgument (TimeAndSizeBoundedCache K V T) :=
  construct (AppConfig.latestRateCacheMaxAge config)
    (AppConfig.latestRateCacheMaxElements config).toNat

/-! ## Capacity -/

theorem toNat_toSizeT (n : Int32) :
    ((toSizeT n).toNat : ℤ) = if 0 ≤ n.toInt then n.toInt else n.toInt + 2 ^ 64 := by
  have hbits : n.toInt = ((toSizeT n).toNat : ℤ).bmod (2 ^ 64) := by
    rw [← Int32.toInt_toInt64]
    exact BitVec.toInt_eq_toNat_bmod n.toInt64.toBitVec
  have hlt : (toSizeT n).toNat < 2 ^ 64 := UInt64.toNat_lt _
  rw [Int.bmod_def] at hbits
  split <;> split at hbits <;> omega

variable [DecidableEq K] [Ticks T]

/-- The constructor throws for every `n ≤ 0`, and a cache it returns never holds
more than `n` entries. -/
def CapacityHonoured (made : Except InvalidArgument (TimeAndSizeBoundedCache K V T)) (n : ℤ) :
    Prop :=
  (n ≤ 0 → made = .error ⟨"max_elements must be > 0"⟩) ∧
    ∀ c₀, made = .ok c₀ → ∀ ops c, c₀.run ops = some c → (c.entries.length : ℤ) ≤ n

theorem capacityHonoured_construct_iff (maxAge : ℤ) (n : Int32) :
    CapacityHonoured (construct (K := K) (V := V) (T := T) maxAge (toSizeT n).toNat) n.toInt ↔
      0 ≤ n.toInt := by
  have hsize := toNat_toSizeT n
  constructor
  · intro h
    by_contra hneg
    rw [if_neg hneg] at hsize
    have hge : -2 ^ 31 ≤ n.toInt := Int32.le_toInt n
    have hpos : (toSizeT n).toNat ≠ 0 := by omega
    have hthrow := h.1 (by omega)
    simp [construct, hpos] at hthrow
  · intro hn
    rw [if_pos hn] at hsize
    refine ⟨fun hle ↦ ?_, fun c₀ hc₀ ops c hrun ↦ ?_⟩
    · have hzero : (toSizeT n).toNat = 0 := by omega
      simp [construct, hzero]
    · obtain ⟨c', hrun', hcoh, _, hcap⟩ := (construct_coherent hc₀).run ops
      obtain rfl : c' = c := Option.some.inj (hrun'.symm.trans hrun)
      have hcap₀ : c₀.maxElements = (toSizeT n).toNat := by
        unfold construct at hc₀
        split at hc₀
        · cases hc₀
        · cases hc₀
          rfl
      have hle := hcoh.size_le
      omega

/-- A configured capacity is honoured exactly when it is not negative. -/
theorem configured_capacity_honoured_iff (config : LayeredConfiguration) (n : Int32) :
    (CapacityHonoured (K := K) (V := V) (T := T)
        (historyCache (config.setInt "cache.history.max_elements" n)) n.toInt ↔ 0 ≤ n.toInt) ∧
      (CapacityHonoured (K := K) (V := V) (T := T)
        (latestRateCache (config.setInt "cache.latest_rate.max_elements" n)) n.toInt ↔
          0 ≤ n.toInt) := by
  constructor
  · simpa [historyCache, AppConfig.historyCacheMaxElements, LayeredConfiguration.getInt,
      LayeredConfiguration.setInt] using capacityHonoured_construct_iff _ n
  · simpa [latestRateCache, AppConfig.latestRateCacheMaxElements, LayeredConfiguration.getInt,
      LayeredConfiguration.setInt] using capacityHonoured_construct_iff _ n

/-- With `max_elements` set to -1 the constructor returns a cache. -/
theorem negative_capacity_not_honoured :
    ¬ CapacityHonoured (K := ℕ) (V := ℕ) (T := ℤ)
      (historyCache (LayeredConfiguration.setInt (fun _ ↦ none) "cache.history.max_elements" (-1)))
      (-1) := by
  intro h
  have hcapacity : AppConfig.historyCacheMaxElements (LayeredConfiguration.setInt (fun _ ↦ none)
      "cache.history.max_elements" (-1)) = 18446744073709551615 := by decide
  have hthrow := h.1 (by decide)
  rw [historyCache, hcapacity] at hthrow
  cases hthrow

/-! ## Age -/

theorem get_after_put (c : CoherentCache K V T) (t₀ t : T) (k : K) (v : V) :
    (((c.step (.put t₀ k v)).2.step (.get t k)).1 = some v ↔
      isExpired c.cache.maxAge t t₀ = false) ∧
    (((c.step (.put t₀ k v)).2.step (.get t k)).1 = none ↔
      isExpired c.cache.maxAge t t₀ = true) := by
  obtain ⟨m, hm⟩ := Nat.exists_eq_succ_of_ne_zero c.coherent.positive.ne'
  have hfind : find Entry.key k (c.step (.put t₀ k v)).2.entries =
      some (c.cache.newEntry t₀ k v) := by
    apply (c.step (.put t₀ k v)).2.coherent.distinct.find_eq_some.mpr
    refine ⟨?_, rfl⟩
    change _ ∈ (c.step (.put t₀ k v)).2.entries
    rw [CoherentCache.step_put, hm]
    exact List.mem_cons_self
  rcases (c.step (.put t₀ k v)).2.step_get t k with
    ⟨hnone, _⟩ | ⟨e, hf, hx, hr, _⟩ | ⟨e, hf, hx, hr, _⟩
  · simp [hfind] at hnone
  all_goals
    obtain rfl : c.cache.newEntry t₀ k v = e := Option.some.inj (hfind.symm.trans hf)
    rw [CoherentCache.step_maxAge] at hx
    have ht : (c.cache.newEntry t₀ k v).insertedAt = t₀ := rfl
    rw [ht] at hx
    simp [hr, hx, TimeAndSizeBoundedCache.newEntry]

/-- The age limit of `m` minutes as the configuration means it. -/
structure AgeHonoured (K V : Type) [DecidableEq K] (m : ℤ) : Prop where
  exact : ∀ insertedAt now : Int64, insertedAt ≤ now →
    now.toInt - insertedAt.toInt < 2 ^ 63 →
      (isExpired m now insertedAt = true ↔ m * 60 * 10 ^ 9 < now.toInt - insertedAt.toInt)
  same_reading : ∀ c : CoherentCache K V Int64, c.cache.maxAge = m → ∀ t k v,
    ((c.step (.put t k v)).2.step (.get t k)).1 = some v
  raised : ∀ m', 0 ≤ m' → m' ≤ m → ∀ c c' : CoherentCache K V Int64,
    c.cache.maxAge = m → c'.cache.maxAge = m' → ∀ t₀ t : Int64, t₀ ≤ t →
      t.toInt - t₀.toInt < 2 ^ 63 → ∀ k v,
        ((c'.step (.put t₀ k v)).2.step (.get t k)).1 = some v →
          ((c.step (.put t₀ k v)).2.step (.get t k)).1 = some v

theorem toInt_ofMinutes (m : ℤ) :
    (Ticks.ofMinutes m : Int64).toInt = (m * 60000000000).bmod (2 ^ 64) := by
  have hconst : (60000000000 : Int64).toInt = 60000000000 := by decide
  change (Int64.ofInt m * 60000000000).toInt = _
  rw [Int64.toInt_mul, Int64.toInt_ofInt, hconst]
  exact Int.bmod_mul_bmod

theorem toInt_difference {insertedAt now : Int64} (hle : insertedAt ≤ now)
    (hfit : now.toInt - insertedAt.toInt < 2 ^ 63) :
    (now - insertedAt).toInt = now.toInt - insertedAt.toInt := by
  have hle' : insertedAt.toInt ≤ now.toInt := Int64.le_iff_toInt_le.mp hle
  rw [Int64.toInt_sub]
  exact Int.bmod_eq_of_le (by omega) (by omega)

theorem isExpired_int64_iff {m : ℤ} {insertedAt now : Int64} (hle : insertedAt ≤ now)
    (hfit : now.toInt - insertedAt.toInt < 2 ^ 63) :
    isExpired m now insertedAt = true ↔
      (m * 60000000000).bmod (2 ^ 64) < now.toInt - insertedAt.toInt := by
  simp only [isExpired, decide_eq_true_eq]
  rw [Int64.lt_iff_toInt_lt, toInt_ofMinutes, toInt_difference hle hfit]

/-- Up to 153722867 minutes the scaled age fits 64 signed bits. -/
theorem isExpired_exact {m : ℤ} (hm : 0 ≤ m) (hfits : m ≤ 153722867) {insertedAt now : Int64}
    (hle : insertedAt ≤ now) (hfit : now.toInt - insertedAt.toInt < 2 ^ 63) :
    isExpired m now insertedAt = true ↔ m * 60 * 10 ^ 9 < now.toInt - insertedAt.toInt := by
  have hwrap : (m * 60000000000).bmod (2 ^ 64) = m * 60000000000 :=
    Int.bmod_eq_of_le (by omega) (by omega)
  rw [isExpired_int64_iff hle hfit, hwrap]
  omega

/-- There the clock of 64 bits and the exact one agree. -/
theorem isExpired_toInt {m : ℤ} (hm : 0 ≤ m) (hfits : m ≤ 153722867) {insertedAt now : Int64}
    (hle : insertedAt ≤ now) (hfit : now.toInt - insertedAt.toInt < 2 ^ 63) :
    isExpired m now insertedAt = isExpired m now.toInt insertedAt.toInt := by
  have hminutes : (Ticks.ofMinutes m : ℤ) = m * 60 * 10 ^ 9 := by
    change m * 60000000000 = _
    omega
  rw [Bool.eq_iff_iff, isExpired_exact hm hfits hle hfit, isExpired, decide_eq_true_eq, hminutes]

theorem ageHonoured_iff {m : ℤ} (hm : 0 ≤ m) : AgeHonoured K V m ↔ m ≤ 153722867 := by
  constructor
  · intro h
    by_contra hbig
    -- the widest difference is within the exact age but past the wrapped one
    have hexact := h.exact 0 Int64.maxValue (by decide) (by decide)
    rw [isExpired_int64_iff (by decide) (by decide)] at hexact
    have hmax : Int64.maxValue.toInt - (0 : Int64).toInt = 2 ^ 63 - 1 := by decide
    rw [hmax] at hexact
    have hrange : (m * 60000000000).bmod (2 ^ 64) < 2 ^ 63 := by
      have := Int.bmod_lt (x := m * 60000000000) (m := 2 ^ 64) (by decide)
      omega
    have heven : (m * 60000000000).bmod (2 ^ 64) % 2 = 0 := by
      rw [Int.bmod_def]
      split <;> omega
    have hpast : m * 60 * 10 ^ 9 < 2 ^ 63 - 1 := hexact.mp (by omega)
    omega
  · intro hfits
    refine ⟨fun _ _ ↦ isExpired_exact hm hfits, ?_, ?_⟩
    · intro c hc t k v
      rw [(get_after_put c t t k v).1, hc, ← Bool.not_eq_true,
        isExpired_exact hm hfits (Int64.le_refl t) (by omega)]
      omega
    · intro m' hm' hmm c c' hc hc' t₀ t hle hfit k v hhit
      rw [(get_after_put c' t₀ t k v).1, hc', ← Bool.not_eq_true,
        isExpired_exact hm' (hmm.trans hfits) hle hfit] at hhit
      rw [(get_after_put c t₀ t k v).1, hc, ← Bool.not_eq_true,
        isExpired_exact hm hfits hle hfit]
      omega

/-- A configured age is honoured exactly up to 153722867 minutes. -/
theorem configured_age_honoured_iff (config : LayeredConfiguration) {m : Int32}
    (hm : 0 ≤ m.toInt) :
    (AgeHonoured K V (AppConfig.historyCacheMaxAge
        (config.setInt "cache.history.max_age_minutes" m)) ↔ m.toInt ≤ 153722867) ∧
      (AgeHonoured K V (AppConfig.latestRateCacheMaxAge
        (config.setInt "cache.latest_rate.max_age_minutes" m)) ↔ m.toInt ≤ 153722867) := by
  constructor
  · simpa [AppConfig.historyCacheMaxAge, LayeredConfiguration.getInt,
      LayeredConfiguration.setInt] using ageHonoured_iff hm
  · simpa [AppConfig.latestRateCacheMaxAge, LayeredConfiguration.getInt,
      LayeredConfiguration.setInt] using ageHonoured_iff hm

theorem configured_age_honoured_iff_default :
    AgeHonoured ℕ ℕ (AppConfig.historyCacheMaxAge
      (LayeredConfiguration.setInt (fun _ ↦ none) "cache.history.max_age_minutes" 1440)) ↔
        (1440 : Int32).toInt ≤ 153722867 :=
  (configured_age_honoured_iff (fun _ ↦ none) (by decide)).1

/-- At 153722868 minutes the scaled age is negative, and an entry expires at the
reading it was put in. -/
theorem large_age_not_honoured :
    isExpired 153722868 (0 : Int64) 0 = true ∧
      ¬ AgeHonoured ℕ ℕ (AppConfig.historyCacheMaxAge
        (LayeredConfiguration.setInt (fun _ ↦ none) "cache.history.max_age_minutes"
          153722868)) := by
  have hexpired : isExpired 153722868 (0 : Int64) 0 = true := by decide
  refine ⟨hexpired, fun h ↦ ?_⟩
  have hm : AppConfig.historyCacheMaxAge (LayeredConfiguration.setInt (fun _ ↦ none)
      "cache.history.max_age_minutes" 153722868) = 153722868 := by decide
  rw [hm] at h
  have hpast := (h.exact 0 0 (by decide) (by decide)).mp hexpired
  exact absurd hpast (by decide)

end CurrencyConverter
