import Mathlib.Data.Finset.Card
import Mathlib.Data.Finset.Image
import Mathlib.Data.List.Nodup
import Mathlib.Data.List.TakeWhile

/-!
# Keyed recency lists

A recency list holds at most one entry per key, the most recently used entry
first.  Moving an entry to the front, dropping entries and cutting the list at
a capacity are its only operations.  The entries ahead of a key are the ones
used more recently; this module follows them through each operation.
-/

namespace RecencyList

variable {ε K : Type*}

def Distinct (key : ε → K) (l : List ε) : Prop := (l.map key).Nodup

section Distinct

variable {key : ε → K}

@[simp] theorem distinct_nil : Distinct key ([] : List ε) := List.nodup_nil

theorem distinct_cons {e : ε} {l : List ε} :
    Distinct key (e :: l) ↔ (∀ x ∈ l, key x ≠ key e) ∧ Distinct key l := by
  simp [Distinct]

theorem Distinct.sublist {l l' : List ε} (h : Distinct key l) (hs : List.Sublist l' l) :
    Distinct key l' :=
  List.Nodup.sublist (hs.map key) h

theorem Distinct.eq_of_key_eq {l : List ε} (h : Distinct key l) {x y : ε} (hx : x ∈ l)
    (hy : y ∈ l) (hxy : key x = key y) : x = y :=
  List.inj_on_of_nodup_map h hx hy hxy

end Distinct

variable [DecidableEq K] (key : ε → K)

def find (k : K) (l : List ε) : Option ε := l.find? fun e ↦ key e = k

/-- The entries stored under other keys than `k`, in order. -/
def without (k : K) (l : List ε) : List ε := l.filter fun e ↦ key e ≠ k

/-- `e` becomes the most recent entry and the only one of its key. -/
def touch (e : ε) (l : List ε) : List ε := e :: without key (key e) l

def ahead (k : K) (l : List ε) : List ε := l.takeWhile fun e ↦ key e ≠ k

variable {key}

@[simp] theorem find_nil (k : K) : find key k [] = none := rfl

@[simp] theorem ahead_nil (k : K) : ahead key k [] = [] := rfl

theorem ahead_cons_same {k : K} {e : ε} (h : key e = k) (l : List ε) :
    ahead key k (e :: l) = [] := by simp [ahead, h]

theorem ahead_cons_ne {k : K} {e : ε} (h : key e ≠ k) (l : List ε) :
    ahead key k (e :: l) = e :: ahead key k l := by simp [ahead, h]

theorem find_eq_none {k : K} {l : List ε} :
    find key k l = none ↔ ∀ e ∈ l, key e ≠ k := by simp [find]

theorem mem_of_find {k : K} {l : List ε} {e : ε} (h : find key k l = some e) :
    e ∈ l ∧ key e = k :=
  ⟨List.mem_of_find?_eq_some h, by simpa using List.find?_some h⟩

theorem exists_find_of_mem {k : K} {l : List ε} (h : ∃ e ∈ l, key e = k) :
    ∃ e, find key k l = some e := by
  obtain ⟨e, he, hk⟩ := h
  cases hf : find key k l with
  | none => exact absurd hk (find_eq_none.mp hf e he)
  | some x => exact ⟨x, rfl⟩

theorem mem_without {k : K} {l : List ε} {e : ε} :
    e ∈ without key k l ↔ e ∈ l ∧ key e ≠ k := by simp [without]

theorem mem_touch {e x : ε} {l : List ε} :
    x ∈ touch key e l ↔ x = e ∨ (x ∈ l ∧ key x ≠ key e) := by
  simp [touch, mem_without]

theorem without_of_absent {k : K} {l : List ε} (h : ∀ e ∈ l, key e ≠ k) :
    without key k l = l := by
  simpa [without] using h

@[simp] theorem without_without (k : K) (l : List ε) :
    without key k (without key k l) = without key k l := by
  simp [without]

theorem without_touch {k : K} {e : ε} (h : key e = k) (l : List ε) :
    without key k (touch key e l) = without key k l := by
  subst h
  simp [touch, without]

namespace Distinct

theorem without {l : List ε} (h : Distinct key l) (k : K) : Distinct key (without key k l) :=
  h.sublist List.filter_sublist

theorem touch {l : List ε} (h : Distinct key l) (e : ε) : Distinct key (touch key e l) :=
  distinct_cons.mpr ⟨fun _ hx ↦ (mem_without.mp hx).2, h.without _⟩

theorem find_eq_some {l : List ε} (h : Distinct key l) {k : K} {e : ε} :
    find key k l = some e ↔ e ∈ l ∧ key e = k := by
  refine ⟨mem_of_find, ?_⟩
  rintro ⟨he, hk⟩
  obtain ⟨x, hx⟩ := exists_find_of_mem ⟨e, he, hk⟩
  obtain ⟨hxl, hxk⟩ := mem_of_find hx
  rw [hx, h.eq_of_key_eq hxl he (hxk.trans hk.symm)]

end Distinct

/-! ## The entries ahead of a key -/

theorem ahead_sublist (k : K) (l : List ε) : List.Sublist (ahead key k l) l :=
  (List.takeWhile_prefix _).sublist

theorem length_ahead_lt {k : K} {l : List ε} (h : ∃ e ∈ l, key e = k) :
    (ahead key k l).length < l.length := by
  induction l with
  | nil => simp at h
  | cons x l ih =>
      by_cases hx : key x = k
      · simp [ahead_cons_same hx]
      · have hl : ∃ e ∈ l, key e = k := by simpa [hx] using h
        simpa [ahead_cons_ne hx] using ih hl

theorem ahead_touch_same {k : K} {e : ε} (h : key e = k) (l : List ε) :
    ahead key k (touch key e l) = [] := ahead_cons_same h _

theorem ahead_filter {k : K} (p : ε → Bool) {l : List ε}
    (hkeep : ∀ e ∈ l, key e = k → p e = true) :
    ahead key k (l.filter p) = (ahead key k l).filter p := by
  induction l with
  | nil => rfl
  | cons x l ih =>
      have htail := ih fun e he ↦ hkeep e (List.mem_cons_of_mem x he)
      by_cases hx : key x = k
      · have hp : p x = true := hkeep x List.mem_cons_self hx
        simp [hp, ahead_cons_same hx]
      · by_cases hp : p x = true
        · simp [hp, ahead_cons_ne hx, htail]
        · simp [hp, ahead_cons_ne hx, htail]

/-- Dropping entries other than the one of `k` moves nothing ahead of it. -/
theorem ahead_sublist_of_sublist {k : K} {l l' : List ε} (hd : Distinct key l)
    (hs : List.Sublist l' l) (hk : ∃ e ∈ l', key e = k) :
    List.Sublist (ahead key k l') (ahead key k l) := by
  induction hs with
  | slnil => exact List.Sublist.refl _
  | cons x hs ih =>
      obtain ⟨hx, htail⟩ := distinct_cons.mp hd
      obtain ⟨e, he, rfl⟩ := hk
      rw [ahead_cons_ne (hx e (hs.subset he)).symm]
      exact (ih htail ⟨e, he, rfl⟩).cons x
  | cons_cons x hs ih =>
      obtain ⟨_, htail⟩ := distinct_cons.mp hd
      by_cases hx : key x = k
      · simp [ahead_cons_same hx]
      · rw [ahead_cons_ne hx, ahead_cons_ne hx]
        exact (ih htail (by simpa [hx] using hk)).cons_cons x

theorem ahead_without {k j : K} (h : j ≠ k) (l : List ε) :
    ahead key k (without key j l) = without key j (ahead key k l) :=
  ahead_filter _ fun e _ he ↦ by simpa [he] using h.symm

theorem ahead_touch_ne {k : K} {e : ε} (h : key e ≠ k) (l : List ε) :
    ahead key k (touch key e l) = e :: without key (key e) (ahead key k l) := by
  rw [touch, ahead_cons_ne h, ahead_without h]

/-- A cut keeps what is ahead of a key it keeps. -/
theorem ahead_take {k : K} {l : List ε} {n : ℕ} (h : ∃ e ∈ l.take n, key e = k) :
    ahead key k (l.take n) = ahead key k l := by
  induction l generalizing n with
  | nil => simp
  | cons x l ih =>
      cases n with
      | zero => simp at h
      | succ n =>
          rw [List.take_succ_cons] at h ⊢
          by_cases hx : key x = k
          · simp [ahead_cons_same hx]
          · have hl : ∃ e ∈ l.take n, key e = k := by simpa [hx] using h
            rw [ahead_cons_ne hx, ahead_cons_ne hx, ih hl]

/-- A key cut off at `n` has at least `n` entries ahead of it. -/
theorem le_length_ahead_of_take {k : K} {l : List ε} {n : ℕ}
    (hmem : ∃ e ∈ l, key e = k) (hcut : ∀ e ∈ l.take n, key e ≠ k) :
    n ≤ (ahead key k l).length := by
  induction l generalizing n with
  | nil => simp at hmem
  | cons x l ih =>
      cases n with
      | zero => exact Nat.zero_le _
      | succ n =>
          rw [List.take_succ_cons] at hcut
          have hx : key x ≠ k := hcut x List.mem_cons_self
          have hl : ∃ e ∈ l, key e = k := by simpa [hx] using hmem
          have hrest := ih hl fun e he ↦ hcut e (List.mem_cons_of_mem x he)
          simpa [ahead_cons_ne hx] using hrest

def keysAhead (key : ε → K) (k : K) (l : List ε) : Finset K := ((ahead key k l).map key).toFinset

theorem mem_keysAhead {k j : K} {l : List ε} :
    j ∈ keysAhead key k l ↔ ∃ e ∈ ahead key k l, key e = j := by
  simp [keysAhead]

theorem Distinct.card_keysAhead {l : List ε} (h : Distinct key l) (k : K) :
    (keysAhead key k l).card = (ahead key k l).length := by
  have hn : ((ahead key k l).map key).Nodup := h.sublist (ahead_sublist k l)
  rw [keysAhead, List.toFinset_card_of_nodup hn, List.length_map]

theorem keysAhead_touch_same {k : K} {e : ε} (h : key e = k) (l : List ε) :
    keysAhead key k (touch key e l) = ∅ := by
  simp [keysAhead, ahead_touch_same h]

theorem keysAhead_touch_ne {k : K} {e : ε} (h : key e ≠ k) (l : List ε) :
    keysAhead key k (touch key e l) = insert (key e) (keysAhead key k l) := by
  ext j
  rw [Finset.mem_insert, mem_keysAhead, mem_keysAhead, ahead_touch_ne h]
  constructor
  · rintro ⟨x, hx, rfl⟩
    rcases List.mem_cons.mp hx with rfl | hx
    · exact Or.inl rfl
    · exact Or.inr ⟨x, (mem_without.mp hx).1, rfl⟩
  · rintro (rfl | ⟨x, hx, rfl⟩)
    · exact ⟨e, List.mem_cons_self, rfl⟩
    · by_cases hxe : key x = key e
      · exact ⟨e, List.mem_cons_self, hxe.symm⟩
      · exact ⟨x, List.mem_cons_of_mem e (mem_without.mpr ⟨hx, hxe⟩), rfl⟩

theorem keysAhead_subset_of_sublist {k : K} {l l' : List ε} (hd : Distinct key l)
    (hs : List.Sublist l' l) (hk : ∃ e ∈ l', key e = k) :
    keysAhead key k l' ⊆ keysAhead key k l := by
  intro j hj
  obtain ⟨e, he, rfl⟩ := mem_keysAhead.mp hj
  exact mem_keysAhead.mpr ⟨e, (ahead_sublist_of_sublist hd hs hk).subset he, rfl⟩

theorem keysAhead_take {k : K} {l : List ε} {n : ℕ} (h : ∃ e ∈ l.take n, key e = k) :
    keysAhead key k (l.take n) = keysAhead key k l := by
  rw [keysAhead, keysAhead, ahead_take h]

/-! ## Cuts of one list -/

theorem map_touch (e : ε) (l : List ε) :
    (touch key e l).map key = key e :: (l.map key).filter (· ≠ key e) := by
  rw [touch, List.map_cons, without, List.filter_map]
  rfl

section Cut

variable {k : K} {ks : List K}

theorem take_filter_take (hd : ks.Nodup) (n : ℕ) :
    ((ks.take (n + 1)).filter (· ≠ k)).take n = (ks.filter (· ≠ k)).take n := by
  induction ks generalizing n with
  | nil => rfl
  | cons j ks ih =>
      obtain ⟨hj, htail⟩ := List.nodup_cons.mp hd
      by_cases hjk : j = k
      · subst hjk
        have hall : ks.filter (· ≠ j) = ks := by
          rw [List.filter_eq_self]
          intro x hx
          simpa using fun h : x = j ↦ hj (h ▸ hx)
        have hcut : (ks.take n).filter (· ≠ j) = ks.take n := by
          rw [List.filter_eq_self]
          intro x hx
          simpa using fun h : x = j ↦ hj (h ▸ List.mem_of_mem_take hx)
        rw [List.take_succ_cons, List.filter_cons_of_neg (by simp),
          List.filter_cons_of_neg (by simp), hall, hcut, List.take_take, Nat.min_self]
      · rw [List.take_succ_cons, List.filter_cons_of_pos (by simpa using hjk),
          List.filter_cons_of_pos (by simpa using hjk)]
        cases n with
        | zero => rfl
        | succ n => rw [List.take_succ_cons, List.take_succ_cons, ih htail n]

/-- Using a key and cutting at `n` does the same to a list and to its first `n`
keys. -/
theorem take_use_take (hd : ks.Nodup) (n : ℕ) :
    (k :: (ks.take n).filter (· ≠ k)).take n = (k :: ks.filter (· ≠ k)).take n := by
  cases n with
  | zero => rfl
  | succ n => rw [List.take_succ_cons, List.take_succ_cons, take_filter_take hd n]

end Cut

/-! ## Distinct labels since the last event of a label -/

/-- The labels other than `k` that occur after the last event labelled `k`, in
a history that lists the latest event first. -/
def distinctSince {η : Type*} (label : η → Option K) (k : K) : List η → Finset K
  | [] => ∅
  | e :: earlier =>
      match label e with
      | none => distinctSince label k earlier
      | some j => if j = k then ∅ else insert j (distinctSince label k earlier)

section DistinctSince

variable {η : Type*} {label : η → Option K} {k : K}

@[simp] theorem distinctSince_nil : distinctSince label k [] = ∅ := rfl

theorem distinctSince_cons_none {e : η} (h : label e = none) (l : List η) :
    distinctSince label k (e :: l) = distinctSince label k l := by
  simp [distinctSince, h]

theorem distinctSince_cons_same {e : η} (h : label e = some k) (l : List η) :
    distinctSince label k (e :: l) = ∅ := by
  simp [distinctSince, h]

theorem distinctSince_cons_ne {e : η} {j : K} (h : label e = some j) (hj : j ≠ k) (l : List η) :
    distinctSince label k (e :: l) = insert j (distinctSince label k l) := by
  simp [distinctSince, h, hj]

theorem distinctSince_subset_cons {e : η} (h : label e ≠ some k) (l : List η) :
    distinctSince label k l ⊆ distinctSince label k (e :: l) := by
  cases he : label e with
  | none => rw [distinctSince_cons_none he]
  | some j =>
      have hj : j ≠ k := fun hjk ↦ h (by rw [he, hjk])
      rw [distinctSince_cons_ne he hj]
      exact Finset.subset_insert j _

end DistinctSince

end RecencyList
