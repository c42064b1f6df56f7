import CurrencyConverter.Cache.TimeAndSizeBoundedCache
import CurrencyConverter.Library.RecencyList

/-!
# Coherence of the list and the index

`Linked` says that the index designates exactly the live nodes, `Coherent` adds
the size bound.  Under it no operation follows a dead iterator, and each one
acts on the entries as an operation on recency lists.
-/

namespace CurrencyConverter

open RecencyList

namespace TimeAndSizeBoundedCache

variable {K V T : Type}

/-- The index designates exactly the live nodes. -/
structure Linked (c : TimeAndSizeBoundedCache K V T) : Prop where
  distinct : Distinct Entry.key c.entries
  nodes : Distinct Entry.node c.entries
  fresh : ∀ e ∈ c.entries, e.node < c.nextNode
  index_iff : ∀ k it, c.index k = some it ↔ ∃ e ∈ c.entries, e.key = k ∧ e.node = it

structure Coherent (c : TimeAndSizeBoundedCache K V T) : Prop extends Linked c where
  size_le : c.entries.length ≤ c.maxElements
  positive : 0 < c.maxElements

theorem construct_coherent {maxAge : ℤ} {maxElements : ℕ} {c : TimeAndSizeBoundedCache K V T}
    (h : construct maxAge maxElements = .ok c) : c.Coherent := by
  unfold construct at h
  split at h
  · cases h
  · cases h
    exact ⟨⟨distinct_nil, distinct_nil, by simp, by simp⟩, Nat.zero_le _, by grind⟩

theorem Linked.deref_node {c : TimeAndSizeBoundedCache K V T} (h : c.Linked)
    {e : Entry K V T} (he : e ∈ c.entries) : c.deref e.node = some e :=
  h.nodes.find_eq_some.mpr ⟨he, rfl⟩

variable [DecidableEq K]

def forget (c : TimeAndSizeBoundedCache K V T) (key : K) : TimeAndSizeBoundedCache K V T :=
  { c with
    entries := without Entry.key key c.entries
    index := Function.update c.index key none }

def moveToFront (c : TimeAndSizeBoundedCache K V T) (e : Entry K V T) :
    TimeAndSizeBoundedCache K V T :=
  { c with entries := touch Entry.key e c.entries }

namespace Linked

variable {c : TimeAndSizeBoundedCache K V T}

theorem index_eq_none (h : c.Linked) {k : K} :
    c.index k = none ↔ find Entry.key k c.entries = none := by
  rw [find_eq_none]
  constructor
  · intro hk e he hek
    have hsome := (h.index_iff k e.node).mpr ⟨e, he, hek, rfl⟩
    simp [hk] at hsome
  · intro hall
    cases hi : c.index k with
    | none => rfl
    | some it =>
        obtain ⟨e, he, hek, _⟩ := (h.index_iff k it).mp hi
        exact absurd hek (hall e he)

theorem index_of_find (h : c.Linked) {k : K} {e : Entry K V T}
    (hf : find Entry.key k c.entries = some e) : c.index k = some e.node := by
  obtain ⟨he, hk⟩ := mem_of_find hf
  exact (h.index_iff k e.node).mpr ⟨e, he, hk, rfl⟩

theorem eraseNode_node (h : c.Linked) {e : Entry K V T} (he : e ∈ c.entries) :
    c.eraseNode e.node = without Entry.key e.key c.entries := by
  apply List.filter_congr
  intro x hx
  have hiff : x.node = e.node ↔ x.key = e.key :=
    ⟨fun hn ↦ by rw [h.nodes.eq_of_key_eq hx he hn],
      fun hk ↦ by rw [h.distinct.eq_of_key_eq hx he hk]⟩
  simp [hiff]

theorem forget_of_absent (h : c.Linked) {k : K} (hk : find Entry.key k c.entries = none) :
    c.forget k = c := by
  have hi : Function.update c.index k none = c.index := by
    rw [← h.index_eq_none.mpr hk, Function.update_eq_self]
  simp only [TimeAndSizeBoundedCache.forget, hi, without_of_absent (find_eq_none.mp hk)]

theorem forget (h : c.Linked) (k : K) : (c.forget k).Linked where
  distinct := h.distinct.without k
  nodes := h.nodes.sublist List.filter_sublist
  fresh e he := h.fresh e (mem_without.mp he).1
  index_iff j it := by
    by_cases hj : j = k
    · subst hj
      simp only [TimeAndSizeBoundedCache.forget, Function.update_self, reduceCtorEq, false_iff]
      rintro ⟨e, he, hek, _⟩
      exact (mem_without.mp he).2 hek
    · simp only [TimeAndSizeBoundedCache.forget, Function.update_of_ne hj, h.index_iff j it]
      constructor
      · rintro ⟨e, he, rfl, hn⟩
        exact ⟨e, mem_without.mpr ⟨he, hj⟩, rfl, hn⟩
      · rintro ⟨e, he, hek, hn⟩
        exact ⟨e, (mem_without.mp he).1, hek, hn⟩

theorem moveToFront (h : c.Linked) {e : Entry K V T} (he : e ∈ c.entries) :
    (c.moveToFront e).Linked where
  distinct := h.distinct.touch e
  nodes := by
    refine distinct_cons.mpr ⟨?_, h.nodes.sublist List.filter_sublist⟩
    intro x hx hn
    obtain ⟨hxl, hxk⟩ := mem_without.mp hx
    exact hxk (by rw [h.nodes.eq_of_key_eq hxl he hn])
  fresh x hx := by
    rcases mem_touch.mp hx with rfl | ⟨hxl, _⟩
    · exact h.fresh x he
    · exact h.fresh x hxl
  index_iff k it := by
    have hmem : ∀ x, x ∈ touch Entry.key e c.entries ↔ x ∈ c.entries := by
      intro x
      rw [mem_touch]
      constructor
      · rintro (rfl | ⟨hx, _⟩)
        · exact he
        · exact hx
      · intro hx
        by_cases hk : x.key = e.key
        · exact Or.inl (h.distinct.eq_of_key_eq hx he hk)
        · exact Or.inr ⟨hx, hk⟩
    simp only [TimeAndSizeBoundedCache.moveToFront, hmem]
    exact h.index_iff k it

theorem pushFront (h : c.Linked) {k : K} (habsent : ∀ e ∈ c.entries, e.key ≠ k)
    (now : T) (v : V) : (c.pushFront now k v).Linked where
  distinct := distinct_cons.mpr ⟨habsent, h.distinct⟩
  nodes := distinct_cons.mpr ⟨fun e he ↦ (h.fresh e he).ne, h.nodes⟩
  fresh e he := by
    rcases List.mem_cons.mp he with rfl | he
    · exact Nat.lt_succ_self _
    · exact (h.fresh e he).trans (Nat.lt_succ_self _)
  index_iff j it := by
    by_cases hj : j = k
    · subst hj
      simp only [TimeAndSizeBoundedCache.pushFront, Function.update_self, Option.some.injEq,
        List.exists_mem_cons_iff]
      constructor
      · intro hit
        exact Or.inl ⟨trivial, hit⟩
      · rintro (⟨_, hit⟩ | ⟨e, he, hek, _⟩)
        · exact hit
        · exact absurd hek (habsent e he)
    · simp only [TimeAndSizeBoundedCache.pushFront, Function.update_of_ne hj,
        List.exists_mem_cons_iff, h.index_iff j it]
      constructor
      · exact Or.inr
      · rintro (⟨hk, _⟩ | hrest)
        · exact absurd hk.symm hj
        · exact hrest

end Linked

namespace Coherent

variable {c : TimeAndSizeBoundedCache K V T}

theorem forget (h : c.Coherent) (k : K) : (c.forget k).Coherent where
  toLinked := h.toLinked.forget k
  size_le := List.length_filter_le _ _ |>.trans h.size_le
  positive := h.positive

theorem moveToFront (h : c.Coherent) {e : Entry K V T} (he : e ∈ c.entries) :
    (c.moveToFront e).Coherent where
  toLinked := h.toLinked.moveToFront he
  size_le := by
    have hlt : (without Entry.key e.key c.entries).length < c.entries.length := by
      apply List.length_filter_lt_length_iff_exists.mpr
      exact ⟨e, he, by simp⟩
    exact (Nat.succ_le_of_lt hlt).trans h.size_le
  positive := h.positive

/-! ## What each operation does -/

theorem dropKey_eq (h : c.Coherent) (k : K) : c.dropKey k = some (c.forget k) := by
  cases hf : find Entry.key k c.entries with
  | none =>
      simp only [dropKey, h.index_eq_none.mpr hf]
      rw [h.forget_of_absent hf]
  | some e =>
      obtain ⟨he, rfl⟩ := mem_of_find hf
      simp only [dropKey, h.index_of_find hf, h.deref_node he, h.eraseNode_node he]
      rfl

variable [Ticks T]

theorem get_absent (h : c.Coherent) {k : K} (hf : find Entry.key k c.entries = none) (now : T) :
    c.get now k = some (none, c) := by
  simp only [get, h.index_eq_none.mpr hf]

theorem get_expired (h : c.Coherent) {k : K} {e : Entry K V T} {now : T}
    (hf : find Entry.key k c.entries = some e) (hx : isExpired c.maxAge now e.insertedAt = true) :
    c.get now k = some (none, c.forget k) := by
  obtain ⟨he, rfl⟩ := mem_of_find hf
  simp only [get, h.index_of_find hf, h.deref_node he, hx, h.eraseNode_node he, if_true]
  rfl

theorem get_live (h : c.Coherent) {k : K} {e : Entry K V T} {now : T}
    (hf : find Entry.key k c.entries = some e) (hx : isExpired c.maxAge now e.insertedAt = false) :
    c.get now k = some (some e.value, c.moveToFront e) := by
  obtain ⟨he, rfl⟩ := mem_of_find hf
  simp only [get, h.index_of_find hf, h.deref_node he, hx, h.eraseNode_node he]
  rfl

end Coherent

def newEntry (c : TimeAndSizeBoundedCache K V T) (now : T) (key : K) (value : V) : Entry K V T :=
  ⟨c.nextNode, key, value, now⟩

/-- Evicting the last of one entry too many cuts the list at the capacity. -/
theorem Linked.evictOldest {c : TimeAndSizeBoundedCache K V T} (h : c.Linked)
    (hpos : 0 < c.maxElements) (hsize : c.entries.length ≤ c.maxElements + 1) :
    ∃ c', c.evictOldest = some c' ∧ c'.Coherent ∧ c'.maxAge = c.maxAge ∧
      c'.maxElements = c.maxElements ∧ c'.entries = c.entries.take c.maxElements := by
  by_cases hfull : c.maxElements < c.entries.length
  · have hne : c.entries ≠ [] := fun hnil ↦ by simp [hnil] at hfull
    obtain ⟨front, oldest, hsplit⟩ := c.entries.eq_nil_or_concat'.resolve_left hne
    have hlast : c.entries.getLast? = some oldest := by simp [hsplit]
    have hdrop : c.entries.dropLast = front := by simp [hsplit]
    have hwithout : without Entry.key oldest.key c.entries = front := by
      have hd := h.distinct
      rw [hsplit] at hd ⊢
      have hfront : ∀ e ∈ front, e.key ≠ oldest.key := by
        intro e he hk
        have hdis := (List.nodup_append.mp (by simpa [Distinct] using hd)).2.2
        exact hdis _ (List.mem_map_of_mem he) _ (List.mem_singleton_self _) hk
      simpa [without] using hfront
    have hlen : front.length = c.maxElements := by
      simp only [hsplit, List.length_append, List.length_singleton] at hfull hsize
      omega
    have htake : c.entries.take c.maxElements = front := by
      rw [hsplit, ← hlen, List.take_left]
    have hforget : c.evictOldest = some (c.forget oldest.key) := by
      simp only [TimeAndSizeBoundedCache.evictOldest, if_pos hfull, hlast, hdrop,
        TimeAndSizeBoundedCache.forget, hwithout]
    refine ⟨_, hforget, ⟨h.forget _, ?_, hpos⟩, rfl, rfl, ?_⟩
    · simp [TimeAndSizeBoundedCache.forget, hwithout, hlen]
    · simp [TimeAndSizeBoundedCache.forget, hwithout, htake]
  · have hle : c.entries.length ≤ c.maxElements := Nat.le_of_not_lt hfull
    refine ⟨c, ?_, ⟨h, hle, hpos⟩, rfl, rfl, (List.take_of_length_le hle).symm⟩
    simp only [TimeAndSizeBoundedCache.evictOldest, if_neg hfull]

/-- `put` moves the new entry to the front and cuts the list at the capacity. -/
theorem Coherent.put_eq {c : TimeAndSizeBoundedCache K V T} (h : c.Coherent)
    (now : T) (k : K) (v : V) :
    ∃ c', c.put now k v = some c' ∧ c'.Coherent ∧ c'.maxAge = c.maxAge ∧
      c'.maxElements = c.maxElements ∧
      c'.entries = (touch Entry.key (c.newEntry now k v) c.entries).take c.maxElements := by
  have habsent : ∀ e ∈ (c.forget k).entries, e.key ≠ k := fun e he ↦ (mem_without.mp he).2
  have hlinked := (h.toLinked.forget k).pushFront habsent now v
  have hsize : ((c.forget k).pushFront now k v).entries.length ≤ c.maxElements + 1 :=
    Nat.succ_le_succ (h.forget k).size_le
  obtain ⟨c', hc', hcoh, hage, hcap, hentries⟩ := hlinked.evictOldest h.positive hsize
  refine ⟨c', ?_, hcoh, hage, hcap, hentries⟩
  simp only [put, h.dropKey_eq k, hc']

structure PutEffect (c : TimeAndSizeBoundedCache K V T) (now : T) (key : K) (value : V)
    (c' : TimeAndSizeBoundedCache K V T) : Prop where
  inserted : ∃ e, c'.entries.head? = some e ∧ e.key = key ∧ e.value = value ∧ e.insertedAt = now
  others : without Entry.key key c'.entries = without Entry.key key c.entries ∨
    ∃ last, c.entries.getLast? = some last ∧ last.key ≠ key ∧
      without Entry.key key c.entries = without Entry.key key c'.entries ++ [last]

theorem Coherent.put_effect {c : TimeAndSizeBoundedCache K V T} (h : c.Coherent) (now : T)
    (k : K) (v : V) : ∃ c', c.put now k v = some c' ∧ PutEffect c now k v c' := by
  obtain ⟨c', hput, _, _, _, hentries⟩ := h.put_eq now k v
  obtain ⟨m, hm⟩ := Nat.exists_eq_succ_of_ne_zero h.positive.ne'
  have hcut : c'.entries = c.newEntry now k v :: (without Entry.key k c.entries).take m := by
    rw [hentries, hm]
    rfl
  have hothers : without Entry.key k c'.entries = (without Entry.key k c.entries).take m := by
    have habsent : ∀ e ∈ (without Entry.key k c.entries).take m, e.key ≠ k := fun e he ↦
      (mem_without.mp (List.mem_of_mem_take he)).2
    rw [hcut]
    simpa [without, newEntry] using without_of_absent habsent
  refine ⟨c', hput, ⟨_, by rw [hcut]; rfl, rfl, rfl, rfl⟩, ?_⟩
  rw [hothers]
  by_cases hfit : (without Entry.key k c.entries).length ≤ m
  · exact Or.inl (List.take_of_length_le hfit)
  · -- a full list without the key: its last entry makes room
    right
    have hle : (without Entry.key k c.entries).length ≤ c.entries.length :=
      List.length_filter_le _ _
    have hcap : c.entries.length ≤ m + 1 := by
      rw [← Nat.succ_eq_add_one, ← hm]
      exact h.size_le
    have hall : without Entry.key k c.entries = c.entries :=
      List.filter_sublist.eq_of_length (by simp only [without] at hfit hle; omega)
    have hlen : c.entries.length = m + 1 := by rw [hall] at hfit; omega
    have hne : c.entries ≠ [] := fun hnil ↦ by simp [hnil] at hlen
    obtain ⟨front, last, hsplit⟩ := c.entries.eq_nil_or_concat'.resolve_left hne
    have hfront : front.length = m := by simpa [hsplit] using hlen
    have hlast : last ∈ without Entry.key k c.entries := by rw [hall, hsplit]; simp
    refine ⟨last, by simp [hsplit], (mem_without.mp hlast).2, ?_⟩
    rw [hall, hsplit, ← hfront, List.take_left]

/-! ## The sweep -/

variable [Ticks T]

/-- The entries a sweep keeps, from its `i`-th visited entry on. -/
def survivors (maxAge : ℤ) (clock : ℕ → T) : ℕ → List (Entry K V T) → List (Entry K V T)
  | _, [] => []
  | i, e :: rest =>
      if isExpired maxAge (clock i) e.insertedAt then survivors maxAge clock (i + 1) rest
      else e :: survivors maxAge clock (i + 1) rest

omit [DecidableEq K] in
theorem survivors_sublist (maxAge : ℤ) (clock : ℕ → T) (i : ℕ) (l : List (Entry K V T)) :
    List.Sublist (survivors maxAge clock i l) l := by
  induction l generalizing i with
  | nil => exact List.Sublist.refl []
  | cons e rest ih =>
      by_cases hx : isExpired maxAge (clock i) e.insertedAt = true
      · simpa [survivors, hx] using (ih (i + 1)).cons e
      · simpa [survivors, hx] using (ih (i + 1)).cons_cons e

theorem sweepFrom_fst (maxAge : ℤ) (clock : ℕ → T) (i : ℕ) (l : List (Entry K V T))
    (index : K → Option ℕ) :
    (sweepFrom maxAge clock i l index).1 = survivors maxAge clock i l := by
  induction l generalizing i index with
  | nil => rfl
  | cons e rest ih =>
      by_cases hx : isExpired maxAge (clock i) e.insertedAt = true
      · simp [sweepFrom, survivors, hx, ih]
      · simp [sweepFrom, survivors, hx, ih]

/-- The loop keeps the structures linked; `pre` is what it has stepped over. -/
theorem Linked.sweepFrom {c : TimeAndSizeBoundedCache K V T} (clock : ℕ → T) (i : ℕ)
    (pre rest : List (Entry K V T)) (index : K → Option ℕ)
    (h : Linked { c with entries := pre ++ rest, index := index }) :
    Linked { c with
      entries := pre ++ (sweepFrom c.maxAge clock i rest index).1
      index := (sweepFrom c.maxAge clock i rest index).2 } := by
  induction rest generalizing i pre index with
  | nil => simpa [TimeAndSizeBoundedCache.sweepFrom] using h
  | cons e rest ih =>
      by_cases hx : isExpired c.maxAge (clock i) e.insertedAt = true
      · have hothers : without Entry.key e.key (pre ++ e :: rest) = pre ++ rest := by
          have hd : ((pre ++ e :: rest).map Entry.key).Nodup := h.distinct
          rw [List.map_append, List.map_cons, List.nodup_middle] at hd
          have hne : ∀ x ∈ pre ++ rest, x.key ≠ e.key := by
            intro x hx hk
            have hmem : e.key ∈ pre.map Entry.key ++ rest.map Entry.key := by
              rw [← List.map_append, ← hk]
              exact List.mem_map_of_mem hx
            exact (List.nodup_cons.mp hd).1 hmem
          simpa [without] using without_of_absent hne
        have hnext : Linked { c with
            entries := pre ++ rest, index := Function.update index e.key none } := by
          have := h.forget e.key
          simpa only [TimeAndSizeBoundedCache.forget, hothers] using this
        simpa [TimeAndSizeBoundedCache.sweepFrom, hx] using ih (i + 1) pre _ hnext
      · have hnext : Linked { c with entries := (pre ++ [e]) ++ rest, index := index } := by
          simpa using h
        simpa [TimeAndSizeBoundedCache.sweepFrom, hx] using ih (i + 1) (pre ++ [e]) index hnext

theorem sweepExpired_entries (c : TimeAndSizeBoundedCache K V T) (clock : ℕ → T) :
    (c.sweepExpired clock).entries = survivors c.maxAge clock 0 c.entries :=
  sweepFrom_fst ..

theorem Coherent.sweepExpired {c : TimeAndSizeBoundedCache K V T} (h : c.Coherent)
    (clock : ℕ → T) : (c.sweepExpired clock).Coherent where
  toLinked := h.toLinked.sweepFrom clock 0 [] c.entries c.index
  size_le := by
    rw [sweepExpired_entries]
    exact (survivors_sublist ..).length_le.trans h.size_le
  positive := h.positive

/-! ## No call is undefined -/

/-- A call on a coherent cache is defined and leaves a coherent cache. -/
theorem Coherent.exec {c : TimeAndSizeBoundedCache K V T} (h : c.Coherent) (op : Op K V T) :
    ∃ r c', c.exec op = some (r, c') ∧ c'.Coherent ∧ c'.maxAge = c.maxAge ∧
      c'.maxElements = c.maxElements := by
  cases op with
  | get now k =>
      cases hf : find Entry.key k c.entries with
      | none => exact ⟨_, _, h.get_absent hf now, h, rfl, rfl⟩
      | some e =>
          cases hx : isExpired c.maxAge now e.insertedAt with
          | true => exact ⟨_, _, h.get_expired hf hx, h.forget k, rfl, rfl⟩
          | false =>
              exact ⟨_, _, h.get_live hf hx, h.moveToFront (mem_of_find hf).1, rfl, rfl⟩
  | put now k v =>
      obtain ⟨c', hput, hcoh, hage, hcap, _⟩ := h.put_eq now k v
      exact ⟨none, c', by simp [TimeAndSizeBoundedCache.exec, hput], hcoh, hage, hcap⟩
  | sweepExpired clock => exact ⟨_, _, rfl, h.sweepExpired clock, rfl, rfl⟩

theorem Coherent.run {c : TimeAndSizeBoundedCache K V T} (h : c.Coherent) (ops : List (Op K V T)) :
    ∃ c', c.run ops = some c' ∧ c'.Coherent ∧ c'.maxAge = c.maxAge ∧
      c'.maxElements = c.maxElements := by
  induction ops generalizing c with
  | nil => exact ⟨c, rfl, h, rfl, rfl⟩
  | cons op ops ih =>
      obtain ⟨r, c₁, hexec, hcoh, hage, hcap⟩ := h.exec op
      obtain ⟨c₂, hrun, hcoh₂, hage₂, hcap₂⟩ := ih hcoh
      refine ⟨c₂, ?_, hcoh₂, hage₂.trans hage, hcap₂.trans hcap⟩
      simp only [TimeAndSizeBoundedCache.run, hexec, hrun]

/-! ## The representation invariant -/

structure GetEffect (c : TimeAndSizeBoundedCache K V T) (key : K)
    (c' : TimeAndSizeBoundedCache K V T) : Prop where
  same : ∀ e ∈ c'.entries, e ∈ c.entries
  others : without Entry.key key c'.entries = without Entry.key key c.entries

theorem Coherent.get_effect {c : TimeAndSizeBoundedCache K V T} (h : c.Coherent) (now : T)
    (k : K) : ∃ r c', c.get now k = some (r, c') ∧ GetEffect c k c' := by
  cases hf : find Entry.key k c.entries with
  | none => exact ⟨_, _, h.get_absent hf now, fun _ he ↦ he, rfl⟩
  | some e =>
      obtain ⟨he, hk⟩ := mem_of_find hf
      cases hx : isExpired c.maxAge now e.insertedAt with
      | true =>
          refine ⟨_, _, h.get_expired hf hx, fun x hx ↦ (mem_without.mp hx).1, ?_⟩
          exact without_without k c.entries
      | false =>
          refine ⟨_, _, h.get_live hf hx, fun x hx ↦ ?_, without_touch hk _⟩
          rcases mem_touch.mp hx with rfl | ⟨hxl, _⟩
          · exact he
          · exact hxl

theorem representation_invariant {maxAge : ℤ} {maxElements : ℕ}
    {c₀ : TimeAndSizeBoundedCache K V T} (hc₀ : construct maxAge maxElements = .ok c₀)
    (ops : List (Op K V T)) :
    ∃ c, c₀.run ops = some c ∧
      (c.entries.map Entry.key).Nodup ∧ (c.entries.map Entry.node).Nodup ∧
      (∀ k, (∃ it, c.index k = some it) ↔ k ∈ c.entries.map Entry.key) ∧
      (∀ k it, c.index k = some it → ∃ e ∈ c.entries, e.node = it ∧ e.key = k) ∧
      c.entries.length ≤ maxElements ∧
      (∀ now k v, ∃ c', c.put now k v = some c' ∧ PutEffect c now k v c') ∧
      ∀ now k, ∃ r c', c.get now k = some (r, c') ∧ GetEffect c k c' := by
  obtain ⟨c, hrun, h, _, hcap⟩ := (construct_coherent hc₀).run ops
  have hcap₀ : c₀.maxElements = maxElements := by
    unfold construct at hc₀
    split at hc₀
    · cases hc₀
    · cases hc₀
      rfl
  refine ⟨c, hrun, h.distinct, h.nodes, ?_, ?_, ?_, h.put_effect, h.get_effect⟩
  · intro k
    simp only [h.index_iff, List.mem_map]
    constructor
    · rintro ⟨_, e, he, hk, _⟩
      exact ⟨e, he, hk⟩
    · rintro ⟨e, he, hk⟩
      exact ⟨e.node, e, he, hk, rfl⟩
  · intro k it hit
    obtain ⟨e, he, hk, hn⟩ := (h.index_iff k it).mp hit
    exact ⟨e, he, hn, hk⟩
  · rw [← hcap₀, ← hcap]
    exact h.size_le

theorem representation_invariant_evicting :
    ∃ c, (⟨15, 1, [], fun _ ↦ none, 0⟩ : TimeAndSizeBoundedCache ℕ ℕ ℤ).run
        [.put 0 1 10, .get 1 1, .put 2 2 20, .sweepExpired fun _ ↦ 3] = some c ∧
      c.entries.length ≤ 1 := by
  have hc₀ : construct 15 1 = .ok (⟨15, 1, [], fun _ ↦ none, 0⟩ :
      TimeAndSizeBoundedCache ℕ ℕ ℤ) := rfl
  obtain ⟨c, hrun, _, _, _, _, hsize, _, _⟩ :=
    representation_invariant hc₀ [.put 0 1 10, .get 1 1, .put 2 2 20, .sweepExpired fun _ ↦ 3]
  exact ⟨c, hrun, hsize⟩

end TimeAndSizeBoundedCache

end CurrencyConverter
