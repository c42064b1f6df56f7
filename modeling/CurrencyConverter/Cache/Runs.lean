import CurrencyConverter.Cache.Coherence

/-!
# Runs of a coherent cache

A run is a list of calls, the latest first, and `after` is the cache it leaves.
The history functions read off a run what the last `put` of a key stored and
which keys were used since.  Every entry of the cache is the last `put` of its
key, so a hit can only return that one.
-/

namespace CurrencyConverter

open RecencyList TimeAndSizeBoundedCache

/-- A cache whose list and index agree. -/
structure CoherentCache (K V T : Type) where
  cache : TimeAndSizeBoundedCache K V T
  coherent : cache.Coherent

namespace CoherentCache

variable {K V T : Type}

def empty (maxAge : ℤ) (maxElements : ℕ) (hpos : 0 < maxElements) : CoherentCache K V T where
  cache := ⟨maxAge, maxElements, [], fun _ ↦ none, 0⟩
  coherent := ⟨⟨distinct_nil, distinct_nil, by simp, by simp⟩, Nat.zero_le _, hpos⟩

theorem construct_eq_empty (maxAge : ℤ) {maxElements : ℕ} (hpos : 0 < maxElements) :
    construct maxAge maxElements =
      .ok (empty (K := K) (V := V) (T := T) maxAge maxElements hpos).cache := by
  simp [construct, empty, hpos.ne']

abbrev entries (c : CoherentCache K V T) : List (Entry K V T) := c.cache.entries

@[simp] theorem entries_empty (maxAge : ℤ) {maxElements : ℕ} (hpos : 0 < maxElements) :
    (empty (K := K) (V := V) (T := T) maxAge maxElements hpos).entries = [] := rfl

variable [DecidableEq K] [Ticks T]

theorem exec_isSome (c : CoherentCache K V T) (op : Op K V T) : (c.cache.exec op).isSome := by
  obtain ⟨r, c', hexec, _⟩ := c.coherent.exec op
  simp [hexec]

theorem coherent_of_exec (c : CoherentCache K V T) {op : Op K V T} {r : Option V}
    {c' : TimeAndSizeBoundedCache K V T} (h : c.cache.exec op = some (r, c')) : c'.Coherent := by
  obtain ⟨r₁, c₁, hexec, hcoh, _⟩ := c.coherent.exec op
  have hc : c₁ = c' := congrArg Prod.snd (Option.some.inj (hexec.symm.trans h))
  exact hc ▸ hcoh

/-- A call on a coherent cache: what it returns and the cache it leaves. -/
def step (c : CoherentCache K V T) (op : Op K V T) : Option V × CoherentCache K V T :=
  (((c.cache.exec op).get (c.exec_isSome op)).1,
    ⟨((c.cache.exec op).get (c.exec_isSome op)).2,
      c.coherent_of_exec (Option.some_get (c.exec_isSome op)).symm⟩)

theorem step_of_exec (c : CoherentCache K V T) {op : Op K V T} {r : Option V}
    {c' : TimeAndSizeBoundedCache K V T} (h : c.cache.exec op = some (r, c')) :
    (c.step op).1 = r ∧ (c.step op).2.cache = c' := by
  simp [step, h]

@[simp] theorem step_maxAge (c : CoherentCache K V T) (op : Op K V T) :
    (c.step op).2.cache.maxAge = c.cache.maxAge := by
  obtain ⟨r, c', hexec, _, hage, _⟩ := c.coherent.exec op
  rw [(c.step_of_exec hexec).2, hage]

@[simp] theorem step_maxElements (c : CoherentCache K V T) (op : Op K V T) :
    (c.step op).2.cache.maxElements = c.cache.maxElements := by
  obtain ⟨r, c', hexec, _, _, hcap⟩ := c.coherent.exec op
  rw [(c.step_of_exec hexec).2, hcap]

theorem step_get (c : CoherentCache K V T) (now : T) (k : K) :
    (find Entry.key k c.entries = none ∧ (c.step (.get now k)).1 = none ∧
      (c.step (.get now k)).2.entries = c.entries) ∨
    (∃ e, find Entry.key k c.entries = some e ∧
      isExpired c.cache.maxAge now e.insertedAt = true ∧ (c.step (.get now k)).1 = none ∧
      (c.step (.get now k)).2.entries = without Entry.key k c.entries) ∨
    ∃ e, find Entry.key k c.entries = some e ∧
      isExpired c.cache.maxAge now e.insertedAt = false ∧
      (c.step (.get now k)).1 = some e.value ∧
      (c.step (.get now k)).2.entries = touch Entry.key e c.entries := by
  cases hf : find Entry.key k c.entries with
  | none =>
      have hexec : c.cache.exec (.get now k) = some (none, c.cache) := c.coherent.get_absent hf now
      obtain ⟨hr, hc⟩ := c.step_of_exec hexec
      exact Or.inl ⟨rfl, hr, congrArg TimeAndSizeBoundedCache.entries hc⟩
  | some e =>
      right
      cases hx : isExpired c.cache.maxAge now e.insertedAt with
      | true =>
          have hexec : c.cache.exec (.get now k) = some (none, c.cache.forget k) :=
            c.coherent.get_expired hf hx
          obtain ⟨hr, hc⟩ := c.step_of_exec hexec
          exact Or.inl ⟨e, rfl, hx, hr, congrArg TimeAndSizeBoundedCache.entries hc⟩
      | false =>
          have hexec : c.cache.exec (.get now k) = some (some e.value, c.cache.moveToFront e) :=
            c.coherent.get_live hf hx
          obtain ⟨hr, hc⟩ := c.step_of_exec hexec
          exact Or.inr ⟨e, rfl, hx, hr, congrArg TimeAndSizeBoundedCache.entries hc⟩

theorem get_of_live (c : CoherentCache K V T) {now : T} {k : K} {e : Entry K V T}
    (hf : find Entry.key k c.entries = some e)
    (hx : isExpired c.cache.maxAge now e.insertedAt = false) :
    (c.step (.get now k)).1 = some e.value ∧
      find Entry.key k (c.step (.get now k)).2.entries = some e := by
  rcases c.step_get now k with ⟨hnone, _⟩ | ⟨e', hf', hx', _⟩ | ⟨e', hf', _, hr, hl⟩
  · rw [hf] at hnone
    cases hnone
  · obtain rfl : e = e' := Option.some.inj (hf.symm.trans hf')
    rw [hx] at hx'
    cases hx'
  · obtain rfl : e = e' := Option.some.inj (hf.symm.trans hf')
    refine ⟨hr, ?_⟩
    rw [hl, touch, find, List.find?_cons_of_pos (by simpa using (mem_of_find hf).2)]

theorem get_of_not_live (c : CoherentCache K V T) {now : T} {k : K}
    (h : ∀ e, find Entry.key k c.entries = some e →
      isExpired c.cache.maxAge now e.insertedAt = true) : (c.step (.get now k)).1 = none := by
  rcases c.step_get now k with ⟨_, hr, _⟩ | ⟨_, _, _, hr, _⟩ | ⟨e, hf, hx, _⟩
  · exact hr
  · exact hr
  · rw [h e hf] at hx
    cases hx

/-- The value under a key, unless it is expired. -/
def usable (c : CoherentCache K V T) (now : T) (k : K) : Option V :=
  match find Entry.key k c.entries with
  | none => none
  | some e => if isExpired c.cache.maxAge now e.insertedAt then none else some e.value

theorem get_eq_usable (c : CoherentCache K V T) (now : T) (k : K) :
    (c.step (.get now k)).1 = c.usable now k := by
  rcases c.step_get now k with ⟨hf, hr, _⟩ | ⟨e, hf, hx, hr, _⟩ | ⟨e, hf, hx, hr, _⟩
  · simp [usable, hf, hr]
  · simp [usable, hf, hx, hr]
  · simp [usable, hf, hx, hr]

/-- A miss leaves the cache as it was, save for an expired entry under the key. -/
theorem cache_of_miss (c : CoherentCache K V T) {now : T} {k : K}
    (hmiss : (c.step (.get now k)).1 = none) :
    (c.step (.get now k)).2.cache = c.cache ∨
      ∃ e, find Entry.key k c.entries = some e ∧
        isExpired c.cache.maxAge now e.insertedAt = true ∧
        (c.step (.get now k)).2.cache = c.cache.forget k := by
  cases hf : find Entry.key k c.entries with
  | none =>
      have hexec : c.cache.exec (.get now k) = some (none, c.cache) := c.coherent.get_absent hf now
      exact Or.inl (c.step_of_exec hexec).2
  | some e =>
      cases hx : isExpired c.cache.maxAge now e.insertedAt with
      | true =>
          have hexec : c.cache.exec (.get now k) = some (none, c.cache.forget k) :=
            c.coherent.get_expired hf hx
          exact Or.inr ⟨e, rfl, hx, (c.step_of_exec hexec).2⟩
      | false =>
          rw [(c.get_of_live hf hx).1] at hmiss
          cases hmiss

/-- An entry under the key of a lookup that missed was expired. -/
theorem kept_or_expired_of_get (c : CoherentCache K V T)
    (now : T) {e : Entry K V T} (he : e ∈ c.entries) :
    e ∈ (c.step (.get now e.key)).2.entries ∨ isExpired c.cache.maxAge now e.insertedAt = true := by
  have hf : find Entry.key e.key c.entries = some e :=
    c.coherent.distinct.find_eq_some.mpr ⟨he, rfl⟩
  rcases c.step_get now e.key with ⟨hnone, _⟩ | ⟨x, hf', hx, _⟩ | ⟨x, hf', _, _, hl⟩
  · rw [hf] at hnone
    cases hnone
  · cases hf.symm.trans hf'
    exact Or.inr hx
  · cases hf.symm.trans hf'
    left
    rw [hl]
    exact mem_touch.mpr (Or.inl rfl)

theorem not_mem_of_miss (c : CoherentCache K V T)
    {now : T} {k : K} (hmiss : (c.step (.get now k)).1 = none) :
    ∀ e ∈ (c.step (.get now k)).2.entries, e.key ≠ k := by
  rcases c.step_get now k with ⟨hnone, _, hl⟩ | ⟨x, _, _, _, hl⟩ | ⟨x, _, _, hr, _⟩
  · rw [hl]
    exact find_eq_none.mp hnone
  · rw [hl]
    exact fun e he ↦ (mem_without.mp he).2
  · rw [hr] at hmiss
    cases hmiss

theorem step_put (c : CoherentCache K V T) (now : T) (k : K) (v : V) :
    (c.step (.put now k v)).2.entries =
      (touch Entry.key (c.cache.newEntry now k v) c.entries).take c.cache.maxElements := by
  obtain ⟨c', hput, _, _, _, hentries⟩ := c.coherent.put_eq now k v
  have hexec : c.cache.exec (.put now k v) = some (none, c') := by simp [exec, hput]
  rw [entries, (c.step_of_exec hexec).2, hentries]

theorem find_put (c : CoherentCache K V T) (now : T) (k : K) (v : V) :
    find Entry.key k (c.step (.put now k v)).2.entries = some (c.cache.newEntry now k v) := by
  obtain ⟨m, hm⟩ := Nat.exists_eq_succ_of_ne_zero c.coherent.positive.ne'
  have hkey : (c.cache.newEntry now k v).key = k := rfl
  rw [step_put, hm, touch, List.take_succ_cons, find, List.find?_cons_of_pos (by simpa using hkey)]

theorem step_sweepExpired (c : CoherentCache K V T) (clock : ℕ → T) :
    (c.step (.sweepExpired clock)).2.entries =
      survivors c.cache.maxAge clock 0 c.entries := by
  have hexec : c.cache.exec (.sweepExpired clock) = some (none, c.cache.sweepExpired clock) := rfl
  obtain ⟨_, hc⟩ := c.step_of_exec hexec
  rw [entries, hc, sweepExpired_entries]

theorem mem_step (c : CoherentCache K V T) {op : Op K V T} {e : Entry K V T}
    (he : e ∈ (c.step op).2.entries) :
    (e ∈ c.entries ∧ ∀ now v, op ≠ .put now e.key v) ∨ op = .put e.insertedAt e.key e.value := by
  cases op with
  | get now k =>
      left
      refine ⟨?_, by simp⟩
      rcases c.step_get now k with ⟨_, _, h⟩ | ⟨_, _, _, _, h⟩ | ⟨x, hf, _, _, h⟩
      · exact h ▸ he
      · rw [h] at he
        exact (mem_without.mp he).1
      · rw [h] at he
        rcases mem_touch.mp he with rfl | ⟨hel, _⟩
        · exact (mem_of_find hf).1
        · exact hel
  | put now k v =>
      rw [step_put] at he
      rcases mem_touch.mp (List.mem_of_mem_take he) with rfl | ⟨hel, hk⟩
      · exact Or.inr rfl
      · left
        refine ⟨hel, fun t w hput ↦ hk ?_⟩
        cases hput
        rfl
  | sweepExpired clock =>
      left
      rw [step_sweepExpired] at he
      exact ⟨(survivors_sublist ..).subset he, by simp⟩

/-! ## Histories -/

/-- The cache after a run that lists its latest call first. -/
def after (c₀ : CoherentCache K V T) : List (Op K V T) → CoherentCache K V T
  | [] => c₀
  | op :: earlier => ((c₀.after earlier).step op).2

@[simp] theorem after_nil (c₀ : CoherentCache K V T) : c₀.after [] = c₀ := rfl

@[simp] theorem after_cons (c₀ : CoherentCache K V T) (op : Op K V T) (earlier : List (Op K V T)) :
    c₀.after (op :: earlier) = ((c₀.after earlier).step op).2 := rfl

@[simp] theorem after_maxAge (c₀ : CoherentCache K V T) (ops : List (Op K V T)) :
    (c₀.after ops).cache.maxAge = c₀.cache.maxAge := by
  induction ops with
  | nil => rfl
  | cons op earlier ih => simp [ih]

@[simp] theorem after_maxElements (c₀ : CoherentCache K V T) (ops : List (Op K V T)) :
    (c₀.after ops).cache.maxElements = c₀.cache.maxElements := by
  induction ops with
  | nil => rfl
  | cons op earlier ih => simp [ih]

/-- `after` is the code's run of the same calls in the order they were made. -/
theorem run_reverse (c₀ : CoherentCache K V T) (ops : List (Op K V T)) :
    c₀.cache.run ops.reverse = some (c₀.after ops).cache := by
  have happend : ∀ (xs ys : List (Op K V T)) (c : TimeAndSizeBoundedCache K V T),
      c.run (xs ++ ys) = (c.run xs).bind fun c' ↦ c'.run ys := by
    intro xs ys
    induction xs with
    | nil => intro c; rfl
    | cons op xs ih =>
        intro c
        simp only [List.cons_append, run]
        cases hexec : c.exec op with
        | none => rfl
        | some out => simpa using ih out.2
  induction ops with
  | nil => rfl
  | cons op earlier ih =>
      obtain ⟨r, c', hexec, _⟩ := (c₀.after earlier).coherent.exec op
      rw [List.reverse_cons, happend, ih]
      simp only [Option.bind_some, run, hexec, after_cons,
        ((c₀.after earlier).step_of_exec hexec).2]

omit [Ticks T] in
/-- What the last `put` of `k` stored, and when. -/
def lastPut (k : K) : List (Op K V T) → Option (T × V)
  | [] => none
  | .put now j v :: earlier => if j = k then some (now, v) else lastPut k earlier
  | _ :: earlier => lastPut k earlier

omit [Ticks T] in
theorem lastPut_cons_of_ne {k : K} {op : Op K V T} (h : ∀ now v, op ≠ .put now k v)
    (earlier : List (Op K V T)) : lastPut k (op :: earlier) = lastPut k earlier := by
  cases op with
  | get now j => rfl
  | put now j v =>
      have hj : j ≠ k := fun hjk ↦ h now v (by rw [hjk])
      simp [lastPut, hj]
  | sweepExpired clock => rfl

omit [Ticks T] in
theorem exists_lastPut_of_mem {k : K} {t : T} {v : V} {ops : List (Op K V T)}
    (h : .put t k v ∈ ops) : ∃ t' v', lastPut k ops = some (t', v') := by
  induction ops with
  | nil => cases h
  | cons op earlier ih =>
      by_cases hop : ∃ now w, op = .put now k w
      · obtain ⟨now, w, rfl⟩ := hop
        exact ⟨now, w, if_pos rfl⟩
      · rw [lastPut_cons_of_ne fun now w heq ↦ hop ⟨now, w, heq⟩]
        rcases List.mem_cons.mp h with heq | h
        · exact absurd ⟨t, v, heq.symm⟩ hop
        · exact ih h

theorem lastPut_of_mem {maxAge : ℤ} {maxElements : ℕ} {hpos : 0 < maxElements}
    (ops : List (Op K V T)) {e : Entry K V T}
    (he : e ∈ ((empty maxAge maxElements hpos).after ops).entries) :
    lastPut e.key ops = some (e.insertedAt, e.value) := by
  induction ops with
  | nil => simp at he
  | cons op earlier ih =>
      rcases mem_step _ he with ⟨hel, hne⟩ | rfl
      · rw [lastPut_cons_of_ne hne]
        exact ih hel
      · simp [lastPut]

/-- A hit returns what the last `put` of the key stored, within its age. -/
theorem lastPut_of_hit {maxAge : ℤ} {maxElements : ℕ} {hpos : 0 < maxElements}
    (ops : List (Op K V T)) {now : T} {k : K} {v : V}
    (h : (((empty maxAge maxElements hpos).after ops).step (.get now k)).1 = some v) :
    ∃ t₀, lastPut k ops = some (t₀, v) ∧ isExpired maxAge now t₀ = false := by
  rcases step_get ((empty maxAge maxElements hpos).after ops) now k with
    ⟨_, hr, _⟩ | ⟨_, _, _, hr, _⟩ | ⟨e, hf, hx, hr, _⟩
  · simp [hr] at h
  · simp [hr] at h
  · have hv : e.value = v := Option.some.inj (hr.symm.trans h)
    obtain ⟨he, rfl⟩ := mem_of_find hf
    rw [after_maxAge] at hx
    exact ⟨e.insertedAt, by rw [lastPut_of_mem ops he, hv], hx⟩

theorem isExpired_eq_false_iff {maxAge now insertedAt : ℤ} :
    isExpired maxAge now insertedAt = false ↔ now - insertedAt ≤ maxAge * 60000000000 := by
  simp [isExpired, Ticks.ofMinutes]

theorem get_returns_fresh_last_put {maxAge : ℤ} {maxElements : ℕ} (hpos : 0 < maxElements)
    (ops : List (Op K V ℤ)) {t : ℤ} {k : K} {v : V}
    (hhit : (((empty maxAge maxElements hpos).after ops).step (.get t k)).1 = some v) :
    ∃ t₀, lastPut k ops = some (t₀, v) ∧ t - t₀ ≤ maxAge * 60000000000 := by
  obtain ⟨t₀, hput, hx⟩ := lastPut_of_hit ops hhit
  exact ⟨t₀, hput, isExpired_eq_false_iff.mp hx⟩

/-- After two hits the entry still dates from its `put`. -/
theorem get_returns_fresh_last_put_after_hits :
    ∃ t₀, lastPut 1 ([.get 7 1, .get 5 1, .put 3 1 10] : List (Op ℕ ℕ ℤ)) = some (t₀, 10) ∧
      9 - t₀ ≤ 1 * 60000000000 := by
  have hpos : 0 < 4 := by decide
  have hhit : (((empty 1 4 hpos).after
      ([.get 7 1, .get 5 1, .put 3 1 10] : List (Op ℕ ℕ ℤ))).step (.get 9 1)).1 = some 10 := rfl
  exact get_returns_fresh_last_put hpos _ hhit

end CoherentCache

end CurrencyConverter
