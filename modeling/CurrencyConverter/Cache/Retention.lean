import CurrencyConverter.Cache.Runs

/-!
# Exact LRU retention

The entries ahead of a key are keys touched since that key was.  An entry
therefore survives until `maxElements` other keys were touched, and, as long as
nothing is removed for age, not longer.
-/

namespace CurrencyConverter

open RecencyList TimeAndSizeBoundedCache

namespace CoherentCache

variable {K V T : Type}

/-- A call of a run, what it returned, and the keys whose entries it removed
for age. -/
structure Call (K V T : Type) where
  op : Op K V T
  returned : Option V
  aged : List K

def Call.touched : Call K V T → Option K
  | ⟨.put _ k _, _, _⟩ => some k
  | ⟨.get _ k, some _, _⟩ => some k
  | _ => none

variable [DecidableEq K]

def agedSince (k : K) : List (Call K V T) → List K
  | [] => []
  | call :: earlier => if call.touched = some k then [] else call.aged ++ agedSince k earlier

variable [Ticks T]

def agedOut (c : CoherentCache K V T) (op : Op K V T) : List K :=
  match op with
  | .put _ _ _ => []
  | _ => (c.entries.map Entry.key).filter fun k ↦
      k ∉ (c.step op).2.entries.map Entry.key

def record (c : CoherentCache K V T) (op : Op K V T) : Call K V T :=
  ⟨op, (c.step op).1, c.agedOut op⟩

/-- The calls of a run with their outcomes, the latest first. -/
def calls (c₀ : CoherentCache K V T) : List (Op K V T) → List (Call K V T)
  | [] => []
  | op :: earlier => (c₀.after earlier).record op :: c₀.calls earlier

@[simp] theorem calls_cons (c₀ : CoherentCache K V T) (op : Op K V T) (earlier : List (Op K V T)) :
    c₀.calls (op :: earlier) = (c₀.after earlier).record op :: c₀.calls earlier := rfl

theorem touched_put (c : CoherentCache K V T) (now : T) (j : K) (v : V) :
    (c.record (.put now j v)).touched = some j := rfl

theorem touched_sweepExpired (c : CoherentCache K V T) (clock : ℕ → T) :
    (c.record (.sweepExpired clock)).touched = none := rfl

theorem touched_of_miss (c : CoherentCache K V T) {now : T} {j : K}
    (h : (c.step (.get now j)).1 = none) : (c.record (.get now j)).touched = none := by
  simp [record, Call.touched, h]

theorem touched_of_hit (c : CoherentCache K V T) {now : T} {j : K} {v : V}
    (h : (c.step (.get now j)).1 = some v) : (c.record (.get now j)).touched = some j := by
  simp [record, Call.touched, h]

def Reads : Op K V T → T → Prop
  | .get now _, t => t = now
  | .put now _ _, t => t = now
  | .sweepExpired clock, t => ∃ i, clock i = t

/-- The readings of a run, latest call first, never go back. -/
def NonDecreasing [LE T] (ops : List (Op K V T)) : Prop :=
  ops.Pairwise fun later earlier ↦ ∀ s t, Reads earlier s → Reads later t → s ≤ t

theorem le_of_lastPut {V : Type} {ops : List (Op K V ℤ)} (hclock : NonDecreasing ops) {k : K}
    {t t₀ : ℤ} {v v₀ : V} (hput : .put t₀ k v₀ ∈ ops) (hlast : lastPut k ops = some (t, v)) :
    t₀ ≤ t := by
  induction ops with
  | nil => cases hput
  | cons op earlier ih =>
      obtain ⟨hlater, hearlier⟩ := List.pairwise_cons.mp hclock
      by_cases hop : ∃ now w, op = .put now k w
      · obtain ⟨now, w, rfl⟩ := hop
        rw [lastPut, if_pos rfl] at hlast
        cases hlast
        rcases List.mem_cons.mp hput with heq | hput
        · cases heq
          exact Int.le_refl _
        · exact hlater _ hput t₀ t rfl rfl
      · have hne : ∀ now w, op ≠ .put now k w := fun now w h ↦ hop ⟨now, w, h⟩
        rw [lastPut_cons_of_ne hne] at hlast
        rcases List.mem_cons.mp hput with heq | hput
        · exact absurd heq.symm (hne t₀ v₀)
        · exact ih hearlier hput hlast

/-! ## Entries ahead of a key after one call -/

omit [DecidableEq K] in
theorem expired_of_swept {maxAge : ℤ} {clock : ℕ → T} {i : ℕ} {l : List (Entry K V T)}
    {e : Entry K V T} (he : e ∈ l) (hgone : e ∉ survivors maxAge clock i l) :
    ∃ j, isExpired maxAge (clock j) e.insertedAt = true := by
  induction l generalizing i with
  | nil => simp at he
  | cons x rest ih =>
      by_cases hx : isExpired maxAge (clock i) x.insertedAt = true
      · rcases List.mem_cons.mp he with rfl | he
        · exact ⟨i, hx⟩
        · exact ih he (by simpa [survivors, hx] using hgone)
      · have hgone' : e ≠ x ∧ e ∉ survivors maxAge clock (i + 1) rest := by
          simpa [survivors, hx] using hgone
        rcases List.mem_cons.mp he with rfl | he
        · exact absurd rfl hgone'.1
        · exact ih he hgone'.2

/-- Where an entry goes that `put` of another key does not keep: `maxElements`
keys are ahead of it. -/
theorem put_keeps_or_evicts (c : CoherentCache K V T) (now : T) (v : V) {j k : K} (hj : j ≠ k)
    (hk : ∃ e ∈ c.entries, e.key = k) :
    ((∃ e ∈ (c.step (.put now j v)).2.entries, e.key = k) ∧
      keysAhead Entry.key k (c.step (.put now j v)).2.entries =
        insert j (keysAhead Entry.key k c.entries)) ∨
    c.cache.maxElements ≤ (insert j (keysAhead Entry.key k c.entries)).card := by
  have hkey : (c.cache.newEntry now j v).key = j := rfl
  have hahead : keysAhead Entry.key k (touch Entry.key (c.cache.newEntry now j v) c.entries) =
      insert j (keysAhead Entry.key k c.entries) := keysAhead_touch_ne (hkey ▸ hj) c.entries
  have hmem : ∃ e ∈ touch Entry.key (c.cache.newEntry now j v) c.entries, e.key = k := by
    obtain ⟨e, he, hek⟩ := hk
    exact ⟨e, mem_touch.mpr (Or.inr ⟨he, fun h ↦ hj (by rw [← hkey, ← h, hek])⟩), hek⟩
  rw [step_put, ← hahead]
  by_cases hkeep : ∃ e ∈ (touch Entry.key (c.cache.newEntry now j v) c.entries).take
      c.cache.maxElements, e.key = k
  · exact Or.inl ⟨hkeep, keysAhead_take hkeep⟩
  · right
    rw [(c.coherent.distinct.touch _).card_keysAhead]
    exact le_length_ahead_of_take hmem fun e he hek ↦ hkeep ⟨e, he, hek⟩

theorem put_own (c : CoherentCache K V T) (now : T) (k : K) (v : V) :
    (∃ e ∈ (c.step (.put now k v)).2.entries, e.key = k) ∧
      keysAhead Entry.key k (c.step (.put now k v)).2.entries = ∅ := by
  obtain ⟨m, hm⟩ := Nat.exists_eq_succ_of_ne_zero c.coherent.positive.ne'
  have hmem : ∃ e ∈ (c.step (.put now k v)).2.entries, e.key = k := by
    rw [step_put, hm]
    exact ⟨c.cache.newEntry now k v, List.mem_cons_self, rfl⟩
  refine ⟨hmem, ?_⟩
  rw [step_put] at hmem ⊢
  rw [keysAhead_take hmem]
  exact keysAhead_touch_same rfl c.entries

/-! ## The retention invariant -/

/-- `k` is in the cache and only keys of `since` are ahead of it. -/
def Held (c : CoherentCache K V T) (k : K) (since : Finset K) : Prop :=
  (∃ e ∈ c.entries, e.key = k) ∧ keysAhead Entry.key k c.entries ⊆ since

theorem held_of_touched (c : CoherentCache K V T) {op : Op K V T} {k : K}
    (h : (c.record op).touched = some k) : Held (c.step op).2 k ∅ := by
  cases op with
  | get now j =>
      rcases c.step_get now j with ⟨_, hr, _⟩ | ⟨_, _, _, hr, _⟩ | ⟨e, hf, _, hr, hl⟩
      · simp [c.touched_of_miss hr] at h
      · simp [c.touched_of_miss hr] at h
      · have hjk : j = k := Option.some.inj ((c.touched_of_hit hr).symm.trans h)
        have hek : e.key = k := (mem_of_find hf).2.trans hjk
        rw [Held, hl, keysAhead_touch_same hek]
        exact ⟨⟨e, List.mem_cons_self, hek⟩, Finset.Subset.refl _⟩
  | put now j v =>
      have hjk : j = k := Option.some.inj h
      subst hjk
      obtain ⟨hin, hahead⟩ := c.put_own now j v
      exact ⟨hin, hahead.subset⟩
  | sweepExpired clock => cases h

/-- A call that does not touch `k` keeps it behind the keys touched since, or
reads the clock past its age, or evicts it behind `maxElements` other keys. -/
theorem Held.step {c : CoherentCache K V T} {k : K} {l : List (Call K V T)}
    (h : Held c k (distinctSince Call.touched k l)) {op : Op K V T}
    (hne : (c.record op).touched ≠ some k) {t₀ : T}
    (hstored : ∀ e ∈ c.entries, e.key = k → e.insertedAt = t₀) :
    Held (c.step op).2 k (distinctSince Call.touched k (c.record op :: l)) ∨
      (∃ s, Reads op s ∧ isExpired c.cache.maxAge s t₀ = true) ∨
      c.cache.maxElements ≤ (distinctSince Call.touched k (c.record op :: l)).card := by
  obtain ⟨⟨x, hx, hxk⟩, hsub⟩ := h
  cases op with
  | get now j =>
      rcases c.step_get now j with ⟨_, hr, hl⟩ | ⟨e, hf, hexp, hr, hl⟩ | ⟨e, hf, _, hr, hl⟩
      · rw [distinctSince_cons_none (c.touched_of_miss hr)]
        left
        rw [Held, hl]
        exact ⟨⟨x, hx, hxk⟩, hsub⟩
      · rw [distinctSince_cons_none (c.touched_of_miss hr)]
        by_cases hjk : j = k
        · obtain ⟨he, hek⟩ := mem_of_find hf
          have ht := hstored e he (hek.trans hjk)
          exact Or.inr (Or.inl ⟨now, rfl, ht ▸ hexp⟩)
        · left
          have hin : ∃ e ∈ without Entry.key j c.entries, e.key = k :=
            ⟨x, mem_without.mpr ⟨hx, fun hj ↦ hjk (hj.symm.trans hxk)⟩, hxk⟩
          rw [Held, hl]
          exact ⟨hin, (keysAhead_subset_of_sublist c.coherent.distinct
            List.filter_sublist hin).trans hsub⟩
      · have htouch := c.touched_of_hit hr
        have hjk : j ≠ k := fun hj ↦ hne (htouch.trans (congrArg some hj))
        have hek : e.key = j := (mem_of_find hf).2
        have hne' : e.key ≠ k := hek ▸ hjk
        rw [distinctSince_cons_ne htouch hjk]
        left
        rw [Held, hl, keysAhead_touch_ne hne', hek]
        refine ⟨⟨x, mem_touch.mpr (Or.inr ⟨hx, ?_⟩), hxk⟩, Finset.insert_subset_insert j hsub⟩
        exact fun hj ↦ hne' (hj.symm.trans hxk)
  | put now j v =>
      have hjk : j ≠ k := fun hj ↦ hne (congrArg some hj)
      rw [distinctSince_cons_ne (c.touched_put now j v) hjk]
      rcases c.put_keeps_or_evicts now v hjk ⟨x, hx, hxk⟩ with ⟨hin, heq⟩ | hfull
      · left
        rw [Held, heq]
        exact ⟨hin, Finset.insert_subset_insert j hsub⟩
      · right
        right
        exact hfull.trans (Finset.card_le_card (Finset.insert_subset_insert j hsub))
  | sweepExpired clock =>
      rw [distinctSince_cons_none (c.touched_sweepExpired clock)]
      by_cases hkeep : x ∈ survivors c.cache.maxAge clock 0 c.entries
      · left
        rw [Held, step_sweepExpired]
        exact ⟨⟨x, hkeep, hxk⟩, (keysAhead_subset_of_sublist c.coherent.distinct
          (survivors_sublist ..) ⟨x, hkeep, hxk⟩).trans hsub⟩
      · obtain ⟨i, hexp⟩ := expired_of_swept hx hkeep
        have ht := hstored x hx hxk
        exact Or.inr (Or.inl ⟨clock i, ⟨i, rfl⟩, ht ▸ hexp⟩)

section Runs

variable (maxAge : ℤ) {maxElements : ℕ} (hpos : 0 < maxElements)

/-- Over a run: a key is held behind the keys touched since, unless a reading
was past its age or `maxElements` other keys were touched. -/
theorem held_or_lost (ops : List (Op K V T)) {k : K} {t₀ : T} {v : V}
    (hput : lastPut k ops = some (t₀, v)) :
    Held ((empty maxAge maxElements hpos).after ops) k
        (distinctSince Call.touched k ((empty maxAge maxElements hpos).calls ops)) ∨
      (∃ op ∈ ops, ∃ s, Reads op s ∧ isExpired maxAge s t₀ = true) ∨
      maxElements ≤
        (distinctSince Call.touched k ((empty maxAge maxElements hpos).calls ops)).card := by
  induction ops with
  | nil => simp [lastPut] at hput
  | cons op earlier ih =>
      rw [after_cons, calls_cons]
      set c := (empty (K := K) (V := V) (T := T) maxAge maxElements hpos).after earlier with hc
      by_cases htouch : (c.record op).touched = some k
      · rw [distinctSince_cons_same htouch]
        exact Or.inl (c.held_of_touched htouch)
      · have hnot : ∀ now w, op ≠ .put now k w := by
          rintro now w rfl
          exact htouch rfl
        rw [lastPut_cons_of_ne hnot] at hput
        rcases ih hput with hheld | ⟨op', hop', hs⟩ | hfull
        · have hstored : ∀ e ∈ c.entries, e.key = k → e.insertedAt = t₀ := by
            rintro e he rfl
            exact congrArg Prod.fst (Option.some.inj ((lastPut_of_mem earlier he).symm.trans hput))
          have hage : c.cache.maxAge = maxAge := by rw [hc, after_maxAge]; rfl
          have hcap : c.cache.maxElements = maxElements := by rw [hc, after_maxElements]; rfl
          rcases hheld.step htouch hstored with hheld' | hexp | hfull
          · exact Or.inl hheld'
          · rw [hage] at hexp
            exact Or.inr (Or.inl ⟨op, List.mem_cons_self, hexp⟩)
          · rw [hcap] at hfull
            exact Or.inr (Or.inr hfull)
        · exact Or.inr (Or.inl ⟨op', List.mem_cons_of_mem op hop', hs⟩)
        · right
          right
          exact hfull.trans (Finset.card_le_card (distinctSince_subset_cons htouch _))

theorem hit_of_retained {ops : List (Op K V ℤ)} {t : ℤ} {k : K}
    (hclock : NonDecreasing (.get t k :: ops)) {t₀ : ℤ} {v : V}
    (hput : lastPut k ops = some (t₀, v)) (hage : t - t₀ ≤ maxAge * 60000000000)
    (hfew : (distinctSince Call.touched k
      ((empty maxAge maxElements hpos).calls ops)).card < maxElements) :
    (((empty maxAge maxElements hpos).after ops).step (.get t k)).1 = some v := by
  have hfresh : isExpired maxAge t t₀ = false := isExpired_eq_false_iff.mpr hage
  rcases held_or_lost maxAge hpos ops hput with
    ⟨hin, _⟩ | ⟨op, hop, s, hs, hexp⟩ | hfull
  · obtain ⟨e, hf⟩ := exists_find_of_mem hin
    obtain ⟨he, rfl⟩ := mem_of_find hf
    have hlast := (lastPut_of_mem ops he).symm.trans hput
    rcases step_get ((empty maxAge maxElements hpos).after ops) t e.key with
      ⟨hnone, _⟩ | ⟨x, hf', hx, _⟩ | ⟨x, hf', _, hr, _⟩
    · simp [hf] at hnone
    · obtain rfl : e = x := Option.some.inj (hf.symm.trans hf')
      rw [after_maxAge] at hx
      have ht : e.insertedAt = t₀ := congrArg Prod.fst (Option.some.inj hlast)
      rw [ht] at hx
      exact absurd hfresh (by rw [show isExpired maxAge t t₀ = true from hx]; decide)
    · obtain rfl : e = x := Option.some.inj (hf.symm.trans hf')
      have hv : e.value = v := congrArg Prod.snd (Option.some.inj hlast)
      rw [hr, hv]
  · -- a reading past the age would lie after `t`
    have hle : s ≤ t := (List.pairwise_cons.mp hclock).1 op hop s t hs rfl
    have hpast : maxAge * 60000000000 < s - t₀ := by
      simpa [isExpired, Ticks.ofMinutes] using hexp
    omega
  · omega

end Runs

/-! ## Eviction -/

theorem entries_of_agedOut_sweep (c : CoherentCache K V T) {clock : ℕ → T}
    (haged : c.agedOut (.sweepExpired clock) = []) :
    (c.step (.sweepExpired clock)).2.entries = c.entries := by
  have hsub : List.Sublist (c.step (.sweepExpired clock)).2.entries c.entries := by
    rw [step_sweepExpired]
    exact survivors_sublist ..
  apply hsub.eq_of_length_le
  have hkeys : c.entries.map Entry.key ⊆
      (c.step (.sweepExpired clock)).2.entries.map Entry.key := by
    intro j hj
    by_contra hgone
    have haged' : j ∈ c.agedOut (.sweepExpired clock) := by
      simp only [agedOut, List.mem_filter]
      exact ⟨hj, by simpa using hgone⟩
    simp [haged] at haged'
  have hlen := (List.subperm_of_subset c.coherent.distinct hkeys).length_le
  simpa using hlen

theorem touched_ahead_step {c : CoherentCache K V T} {k : K} {l : List (Call K V T)}
    (h : (∃ e ∈ c.entries, e.key = k) →
      distinctSince Call.touched k l ⊆ keysAhead Entry.key k c.entries)
    {op : Op K V T} (hne : (c.record op).touched ≠ some k) (haged : c.agedOut op = [])
    (hin : ∃ e ∈ (c.step op).2.entries, e.key = k) :
    distinctSince Call.touched k (c.record op :: l) ⊆
      keysAhead Entry.key k (c.step op).2.entries := by
  obtain ⟨x, hx, hxk⟩ := hin
  cases op with
  | get now j =>
      rcases c.step_get now j with ⟨_, hr, hl⟩ | ⟨e, hf, _, _, hl⟩ | ⟨e, hf, _, hr, hl⟩
      · rw [distinctSince_cons_none (c.touched_of_miss hr), hl]
        rw [hl] at hx
        exact h ⟨x, hx, hxk⟩
      · -- the expired entry of `j` would count as removed for age
        have hj : j ∈ c.agedOut (.get now j) := by
          obtain ⟨he, hek⟩ := mem_of_find hf
          simp only [agedOut, List.mem_filter, hl]
          refine ⟨List.mem_map.mpr ⟨e, he, hek⟩, ?_⟩
          simp [mem_without]
        simp [haged] at hj
      · have htouch := c.touched_of_hit hr
        have hjk : j ≠ k := fun hj ↦ hne (htouch.trans (congrArg some hj))
        have hek : e.key = j := (mem_of_find hf).2
        rw [distinctSince_cons_ne htouch hjk, hl, keysAhead_touch_ne (hek ▸ hjk), hek]
        rw [hl] at hx
        have hxl : x ∈ c.entries := by
          rcases mem_touch.mp hx with rfl | ⟨hxl, _⟩
          · exact (mem_of_find hf).1
          · exact hxl
        exact Finset.insert_subset_insert j (h ⟨x, hxl, hxk⟩)
  | put now j v =>
      have hjk : j ≠ k := fun hj ↦ hne (congrArg some hj)
      rw [distinctSince_cons_ne (c.touched_put now j v) hjk, step_put]
      rw [step_put] at hx
      have hxl : x ∈ c.entries := by
        rcases mem_touch.mp (List.mem_of_mem_take hx) with rfl | ⟨hxl, _⟩
        · exact absurd hxk hjk
        · exact hxl
      have hnew : (c.cache.newEntry now j v).key ≠ k := hjk
      rw [keysAhead_take ⟨x, hx, hxk⟩, keysAhead_touch_ne hnew]
      exact Finset.insert_subset_insert j (h ⟨x, hxl, hxk⟩)
  | sweepExpired clock =>
      rw [distinctSince_cons_none (c.touched_sweepExpired clock)]
      have hall := c.entries_of_agedOut_sweep haged
      rw [hall] at hx ⊢
      exact h ⟨x, hx, hxk⟩

theorem touched_ahead (c₀ : CoherentCache K V T) (ops : List (Op K V T)) {k : K}
    (hnew : ∀ e ∈ c₀.entries, e.key ≠ k) (haged : agedSince k (c₀.calls ops) = [])
    (hin : ∃ e ∈ (c₀.after ops).entries, e.key = k) :
    distinctSince Call.touched k (c₀.calls ops) ⊆
      keysAhead Entry.key k (c₀.after ops).entries := by
  induction ops with
  | nil =>
      obtain ⟨e, he, hek⟩ := hin
      exact absurd hek (hnew e he)
  | cons op earlier ih =>
      rw [calls_cons] at haged ⊢
      by_cases htouch : ((c₀.after earlier).record op).touched = some k
      · rw [distinctSince_cons_same htouch]
        exact Finset.empty_subset _
      · rw [agedSince, if_neg htouch] at haged
        obtain ⟨hnow, hbefore⟩ := List.append_eq_nil_iff.mp haged
        exact touched_ahead_step (ih hbefore) htouch hnow hin

theorem miss_of_evicted (c₀ : CoherentCache K V T) (ops : List (Op K V T)) {k : K}
    (hnew : ∀ e ∈ c₀.entries, e.key ≠ k) (haged : agedSince k (c₀.calls ops) = [])
    (hmany : c₀.cache.maxElements ≤ (distinctSince Call.touched k (c₀.calls ops)).card) (t : T) :
    ((c₀.after ops).step (.get t k)).1 = none := by
  have hcoh := (c₀.after ops).coherent
  rcases step_get (c₀.after ops) t k with ⟨_, hr, _⟩ | ⟨_, _, _, hr, _⟩ | ⟨e, hf, _, _, _⟩
  · exact hr
  · exact hr
  · exfalso
    have hin : ∃ e ∈ (c₀.after ops).entries, e.key = k := ⟨e, mem_of_find hf⟩
    have hcard : (distinctSince Call.touched k (c₀.calls ops)).card ≤
        (ahead Entry.key k (c₀.after ops).entries).length := by
      rw [← hcoh.distinct.card_keysAhead]
      exact Finset.card_le_card (touched_ahead c₀ ops hnew haged hin)
    have hlt := length_ahead_lt hin
    have hsize : (c₀.after ops).entries.length ≤ c₀.cache.maxElements := by
      rw [← after_maxElements c₀ ops]
      exact hcoh.size_le
    omega

theorem lru_retention {maxAge : ℤ} {maxElements : ℕ} (hpos : 0 < maxElements)
    (ops : List (Op K V ℤ)) {t : ℤ} {k : K} (hclock : NonDecreasing (.get t k :: ops))
    {t₀ : ℤ} {v : V} (hput : lastPut k ops = some (t₀, v)) :
    (t - t₀ ≤ maxAge * 60000000000 →
      (distinctSince Call.touched k ((empty maxAge maxElements hpos).calls ops)).card <
        maxElements →
      (((empty maxAge maxElements hpos).after ops).step (.get t k)).1 = some v) ∧
    (agedSince k ((empty maxAge maxElements hpos).calls ops) = [] →
      maxElements ≤
        (distinctSince Call.touched k ((empty maxAge maxElements hpos).calls ops)).card →
      (((empty maxAge maxElements hpos).after ops).step (.get t k)).1 = none) :=
  ⟨hit_of_retained maxAge hpos hclock hput,
    fun haged hmany ↦ miss_of_evicted _ ops (by simp) haged hmany t⟩

/-- One other key leaves room for the first in a cache of two, a second one
does not. -/
theorem lru_retention_of_two :
    (((empty 1 2 Nat.zero_lt_two).after
        ([.put 5 2 20, .get 4 1, .put 3 1 10] : List (Op ℕ ℕ ℤ))).step (.get 6 1)).1 = some 10 ∧
      (((empty 1 2 Nat.zero_lt_two).after
        ([.put 6 3 30, .put 5 2 20, .put 3 1 10] : List (Op ℕ ℕ ℤ))).step (.get 7 1)).1 =
          none := by
  have hkept : NonDecreasing ([.get 6 1, .put 5 2 20, .get 4 1, .put 3 1 10] :
      List (Op ℕ ℕ ℤ)) := by
    simp [NonDecreasing, Reads]
  have hlost : NonDecreasing ([.get 7 1, .put 6 3 30, .put 5 2 20, .put 3 1 10] :
      List (Op ℕ ℕ ℤ)) := by
    simp [NonDecreasing, Reads]
  exact ⟨(lru_retention Nat.zero_lt_two _ hkept rfl).1 (by decide) (by decide),
    (lru_retention Nat.zero_lt_two _ hlost rfl).2 (by decide) (by decide)⟩

end CoherentCache

end CurrencyConverter
