import Mathlib.Data.List.Perm.Basic
import Mathlib.Data.List.Pairwise

/-!
# Loops that skip, push or throw

A loop reads each element of a list: to nothing, to a value that it pushes, or to an
error that ends it.  What it collects is then sorted by a key.
-/

namespace Collecting

variable {α β ε : Type}

/-! ## The loop -/

/-- One turn of the loop, on what has been pushed so far. -/
def push (read : α → Except ε (Option β)) (values : List β) (a : α) : Except ε (List β) := do
  match ← read a with
  | none => pure values
  | some value => pure (values ++ [value])

def collect (read : α → Except ε (Option β)) (xs : List α) : Except ε (List β) :=
  xs.foldlM (push read) []

/-- What one element adds to a loop that does not throw. -/
def added (read : α → Except ε (Option β)) (a : α) : Option β := (read a).toOption.join

section Loop

variable {read : α → Except ε (Option β)} {xs ys : List α} {values : List β}

theorem push_of_ok {a : α} {o : Option β} (h : read a = .ok o) (values : List β) :
    push read values a = .ok (values ++ o.toList) := by
  rw [push, h]
  cases o with
  | none => exact congrArg Except.ok (List.append_nil values).symm
  | some value => rfl

theorem push_of_error {a : α} {ex : ε} (h : read a = .error ex) (values : List β) :
    push read values a = .error ex := by
  rw [push, h]
  rfl

theorem foldlM_push_of_ok (h : ∀ x ∈ xs, ∃ o, read x = .ok o) (values : List β) :
    xs.foldlM (push read) values = .ok (values ++ xs.filterMap (added read)) := by
  induction xs generalizing values with
  | nil => simp [pure, Except.pure]
  | cons x xs ih =>
      obtain ⟨o, ho⟩ := h x List.mem_cons_self
      have hrest : ∀ y ∈ xs, ∃ o, read y = .ok o := fun y hy ↦ h y (List.mem_cons_of_mem x hy)
      have hadded : added read x = o := by rw [added, ho]; rfl
      calc (x :: xs).foldlM (push read) values
          = xs.foldlM (push read) (values ++ o.toList) := by
            rw [List.foldlM_cons, push_of_ok ho]
            rfl
        _ = .ok (values ++ o.toList ++ xs.filterMap (added read)) := ih hrest _
        _ = .ok (values ++ (x :: xs).filterMap (added read)) := by
            rw [List.append_assoc, List.filterMap_cons, hadded]
            cases o <;> rfl

theorem foldlM_push_of_error (h : ∃ x ∈ xs, ∃ ex, read x = .error ex) (values : List β) :
    ∃ ex, xs.foldlM (push read) values = .error ex := by
  induction xs generalizing values with
  | nil => simp at h
  | cons x xs ih =>
      rw [List.foldlM_cons]
      cases hx : read x with
      | error ex =>
          rw [push_of_error hx]
          exact ⟨ex, rfl⟩
      | ok o =>
          rw [push_of_ok hx]
          obtain ⟨y, hy, ex, hread⟩ := h
          rcases List.mem_cons.mp hy with rfl | hmem
          · rw [hx] at hread
            cases hread
          · exact ih ⟨y, hmem, ex, hread⟩ _

theorem collect_error_iff :
    (∃ ex, collect read xs = .error ex) ↔ ∃ x ∈ xs, ∃ ex, read x = .error ex := by
  constructor
  · rintro ⟨ex, hex⟩
    by_contra hnone
    have hok : ∀ x ∈ xs, ∃ o, read x = .ok o := by
      intro x hx
      cases hread : read x with
      | ok o => exact ⟨o, rfl⟩
      | error ex => exact absurd ⟨x, hx, ex, hread⟩ hnone
    rw [collect, foldlM_push_of_ok hok] at hex
    cases hex
  · exact fun h ↦ foldlM_push_of_error h []

theorem collect_ok_iff : collect read xs = .ok values ↔
    (∀ x ∈ xs, ∃ o, read x = .ok o) ∧ values = xs.filterMap (added read) := by
  constructor
  · intro h
    have hok : ∀ x ∈ xs, ∃ o, read x = .ok o := by
      intro x hx
      cases hread : read x with
      | ok o => exact ⟨o, rfl⟩
      | error ex =>
          obtain ⟨ex', hex'⟩ := collect_error_iff.mpr ⟨x, hx, ex, hread⟩
          rw [h] at hex'
          cases hex'
    rw [collect, foldlM_push_of_ok hok] at h
    exact ⟨hok, (Except.ok.inj h).symm⟩
  · rintro ⟨hok, rfl⟩
    exact foldlM_push_of_ok hok []

theorem mem_collect (h : collect read xs = .ok values) {value : β} :
    value ∈ values ↔ ∃ x ∈ xs, read x = .ok (some value) := by
  obtain ⟨hok, rfl⟩ := collect_ok_iff.mp h
  rw [List.mem_filterMap]
  apply exists_congr
  intro x
  apply and_congr_right
  intro hx
  obtain ⟨o, ho⟩ := hok x hx
  rw [added, ho]
  simp [Except.toOption]

/-- Elements that the loop skips may as well not be there. -/
theorem collect_filter {p : α → Bool} (hskip : ∀ x, p x = false → read x = .ok none)
    (xs : List α) : collect read (xs.filter p) = collect read xs := by
  unfold collect
  generalize ([] : List β) = values
  induction xs generalizing values with
  | nil => rfl
  | cons x xs ih =>
      rw [List.filter_cons]
      split
      · rw [List.foldlM_cons, List.foldlM_cons]
        exact congrArg _ (funext ih)
      · next hp =>
          rw [List.foldlM_cons, push_of_ok (hskip x (Bool.eq_false_iff.mpr hp)), ih]
          exact congrArg (xs.foldlM (push read)) (List.append_nil values).symm

/-- A loop that skips nothing. -/
theorem collect_of_forall₂ (h : List.Forall₂ (fun x value ↦ read x = .ok (some value)) xs values) :
    collect read xs = .ok values := by
  rw [collect_ok_iff]
  induction h with
  | nil => exact ⟨by simp, rfl⟩
  | @cons x value xs values hread _ ih =>
      refine ⟨?_, ?_⟩
      · intro y hy
        rcases List.mem_cons.mp hy with rfl | hmem
        · exact ⟨_, hread⟩
        · exact ih.1 y hmem
      · have hadded : added read x = some value := by
          rw [added, hread]
          rfl
        rw [List.filterMap_cons_some hadded, ← ih.2]

theorem collect_perm (read : α → Except ε (Option β)) (h : xs.Perm ys) :
    (∃ values values', collect read xs = .ok values ∧ collect read ys = .ok values' ∧
      values.Perm values') ∨
    (∃ ex, collect read xs = .error ex) ∧ ∃ ex, collect read ys = .error ex := by
  cases hxs : collect read xs with
  | ok values =>
      obtain ⟨hok, rfl⟩ := collect_ok_iff.mp hxs
      have hok' : ∀ y ∈ ys, ∃ o, read y = .ok o := fun y hy ↦ hok y (h.mem_iff.mpr hy)
      exact .inl ⟨_, _, rfl, collect_ok_iff.mpr ⟨hok', rfl⟩, h.filterMap _⟩
  | error ex =>
      obtain ⟨x, hx, hread⟩ := collect_error_iff.mp ⟨ex, hxs⟩
      exact .inr ⟨⟨ex, rfl⟩, collect_error_iff.mpr ⟨x, h.mem_iff.mp hx, hread⟩⟩

/-- Each element has its own key, so what is read from it has. -/
theorem nodup_keys_of_collect {κ : Type} {key : β → κ} {keyOf : α → κ}
    (hkey : ∀ x value, read x = .ok (some value) → key value = keyOf x)
    (hkeys : (xs.map keyOf).Nodup) (h : collect read xs = .ok values) :
    (values.map key).Nodup := by
  obtain ⟨hok, rfl⟩ := collect_ok_iff.mp h
  have hpairs : (xs.filterMap (added read)).Pairwise fun a b ↦ key a ≠ key b := by
    rw [List.pairwise_filterMap]
    refine (List.pairwise_map.mp hkeys).imp_of_mem ?_
    intro x y hx hy hxy a ha b hb
    have hread : ∀ z ∈ xs, ∀ value, added read z = some value → key value = keyOf z := by
      intro z hz value hadded
      obtain ⟨o, ho⟩ := hok z hz
      rw [added, ho] at hadded
      exact hkey z value (ho.trans (congrArg Except.ok hadded))
    rwa [hread x hx a ha, hread y hy b hb]
  exact List.pairwise_map.mpr hpairs

end Loop

/-! ## Sorting by a key -/

variable {κ : Type} [LT κ] [DecidableLT κ]

/-- Sorted by a comparison that only has `<`. -/
def sortBy (key : β → κ) (values : List β) : List β :=
  values.mergeSort fun a b ↦ decide ¬ key b < key a

section Sorted

variable {key : β → κ} {values values' : List β}

@[simp] theorem mem_sortBy {value : β} : value ∈ sortBy key values ↔ value ∈ values :=
  List.mem_mergeSort

variable [LE κ] [Std.IsLinearOrder κ] [Std.LawfulOrderLT κ]

theorem pairwise_sortBy (hkeys : (values.map key).Nodup) :
    (sortBy key values).Pairwise fun a b ↦ key a < key b := by
  have hle : (sortBy key values).Pairwise fun a b ↦ key a ≤ key b := by
    refine (List.pairwise_mergeSort ?_ ?_ values).imp ?_
    · intro a b c hab hbc
      rw [decide_eq_true_eq, Std.not_lt] at hab hbc ⊢
      exact Std.le_trans hab hbc
    · intro a b
      simpa [Std.not_lt] using Std.le_total (a := key a) (b := key b)
    · intro a b hab
      rwa [decide_eq_true_eq, Std.not_lt] at hab
  have hne : (sortBy key values).Pairwise fun a b ↦ key a ≠ key b := by
    have hperm : ((sortBy key values).map key).Perm (values.map key) :=
      (List.mergeSort_perm values _).map key
    exact List.pairwise_map.mp (hperm.nodup_iff.mpr hkeys)
  exact hle.imp₂ (fun a b hab hne ↦ Std.lt_of_le_of_ne hab hne) hne

/-- With distinct keys nothing of the order before remains. -/
theorem sortBy_eq_of_perm (hkeys : (values.map key).Nodup) (h : values.Perm values') :
    sortBy key values = sortBy key values' := by
  have hkeys' : (values'.map key).Nodup := (h.map key).nodup_iff.mp hkeys
  have hasymm : ∀ a b, a ∈ sortBy key values → b ∈ sortBy key values' → key a < key b →
      key b < key a → a = b :=
    fun a b _ _ hab hba ↦ absurd (Std.lt_trans hab hba) Std.lt_irrefl
  have hperm : (sortBy key values).Perm (sortBy key values') :=
    (List.mergeSort_perm values _).trans (h.trans (List.mergeSort_perm values' _).symm)
  exact hperm.eq_of_pairwise hasymm (pairwise_sortBy hkeys) (pairwise_sortBy hkeys')

omit [DecidableLT κ] in
/-- What is in increasing order is known by its members. -/
theorem eq_of_increasing (h : values.Pairwise fun a b ↦ key a < key b)
    (h' : values'.Pairwise fun a b ↦ key a < key b) (hmem : ∀ a, a ∈ values ↔ a ∈ values') :
    values = values' := by
  have hne : ∀ {a b : β}, key a < key b → a ≠ b := by
    rintro a b hlt rfl
    exact Std.lt_irrefl hlt
  have hperm : values.Perm values' :=
    (List.perm_ext_iff_of_nodup (h.imp hne) (h'.imp hne)).mpr hmem
  have hasymm : ∀ a b, a ∈ values → b ∈ values' → key a < key b → key b < key a → a = b :=
    fun a b _ _ hab hba ↦ absurd (Std.lt_trans hab hba) Std.lt_irrefl
  exact hperm.eq_of_pairwise hasymm h h'

end Sorted

end Collecting
