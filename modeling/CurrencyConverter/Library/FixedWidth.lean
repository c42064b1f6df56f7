import Mathlib.Algebra.Order.Ring.Nat
import Mathlib.Data.Nat.Notation
import Mathlib.Order.Basic

/-!
# Numerals of fixed width

Digit strings of one length are ordered as the numbers they stand for, and a record
of fields of fixed width is ordered by its first field that differs.
-/

namespace FixedWidth

section Fields

variable {α : Type*} [LT α]

/-- A first field of fixed width decides, and a tie goes to the rest. -/
theorem append_lt_append_iff {a b x y : List α} (hlen : a.length = b.length) :
    a ++ x < b ++ y ↔ a < b ∨ a = b ∧ x < y := by
  induction a generalizing b with
  | nil =>
      cases b with
      | nil => simp
      | cons d b => simp at hlen
  | cons c a ih =>
      cases b with
      | nil => simp at hlen
      | cons d b =>
          have hrest := ih (by simpa using hlen)
          rw [List.cons_append, List.cons_append, List.cons_lt_cons_iff, List.cons_lt_cons_iff,
            hrest, List.cons.injEq]
          constructor
          · rintro (hlt | ⟨rfl, hlt | ⟨rfl, hxy⟩⟩)
            · exact Or.inl (Or.inl hlt)
            · exact Or.inl (Or.inr ⟨rfl, hlt⟩)
            · exact Or.inr ⟨⟨rfl, rfl⟩, hxy⟩
          · rintro ((hlt | ⟨rfl, hlt⟩) | ⟨⟨rfl, rfl⟩, hxy⟩)
            · exact Or.inl hlt
            · exact Or.inr ⟨rfl, Or.inl hlt⟩
            · exact Or.inr ⟨rfl, Or.inr ⟨rfl, hxy⟩⟩

theorem map_lt_map_iff {β : Type*} [LT β] {f : α → β} {p : α → Prop} {a b : List α}
    (hlt : ∀ x y, p x → p y → (f x < f y ↔ x < y))
    (heq : ∀ x y, p x → p y → (f x = f y ↔ x = y)) (ha : ∀ x ∈ a, p x) (hb : ∀ y ∈ b, p y) :
    a.map f < b.map f ↔ a < b := by
  induction a generalizing b with
  | nil =>
      cases b with
      | nil => simp
      | cons y b => simp
  | cons x a ih =>
      cases b with
      | nil => simp
      | cons y b =>
          have hx := ha x List.mem_cons_self
          have hy := hb y List.mem_cons_self
          have hrest := ih (fun z hz ↦ ha z (List.mem_cons_of_mem x hz))
            (fun z hz ↦ hb z (List.mem_cons_of_mem y hz))
          rw [List.map_cons, List.map_cons, List.cons_lt_cons_iff, List.cons_lt_cons_iff,
            hlt x y hx hy, heq x y hx hy, hrest]

end Fields

/-- The number a digit string stands for, after the digits of `n`. -/
def valueFrom (base : ℕ) : ℕ → List ℕ → ℕ
  | n, [] => n
  | n, d :: ds => valueFrom base (base * n + d) ds

abbrev value (base : ℕ) (ds : List ℕ) : ℕ := valueFrom base 0 ds

theorem valueFrom_lt_pow {base n : ℕ} {ds : List ℕ} (h : ∀ d ∈ ds, d < base) :
    valueFrom base n ds < (n + 1) * base ^ ds.length := by
  induction ds generalizing n with
  | nil => simp [valueFrom]
  | cons d ds ih =>
      have hd : base * n + d + 1 ≤ base * (n + 1) := by
        have := h d List.mem_cons_self
        rw [Nat.mul_succ]
        omega
      calc valueFrom base (base * n + d) ds
          < (base * n + d + 1) * base ^ ds.length :=
            ih fun e he ↦ h e (List.mem_cons_of_mem d he)
        _ ≤ base * (n + 1) * base ^ ds.length := Nat.mul_le_mul_right _ hd
        _ = (n + 1) * base ^ (d :: ds).length := by
            rw [List.length_cons, Nat.pow_succ, Nat.mul_comm base, Nat.mul_assoc,
              Nat.mul_comm base]

theorem mul_add_lt_iff {base a b d e : ℕ} (hd : d < base) (he : e < base) :
    base * a + d < base * b + e ↔ a < b ∨ a = b ∧ d < e := by
  rcases Nat.lt_trichotomy a b with hlt | rfl | hgt
  · have hstep : base * a + base ≤ base * b := by
      rw [← Nat.mul_succ]
      exact Nat.mul_le_mul_left base hlt
    exact iff_of_true (by omega) (Or.inl hlt)
  · simp
  · have hstep : base * b + base ≤ base * a := by
      rw [← Nat.mul_succ]
      exact Nat.mul_le_mul_left base hgt
    exact iff_of_false (by omega) (by omega)

theorem mul_add_eq_iff {base a b d e : ℕ} (hd : d < base) (he : e < base) :
    base * a + d = base * b + e ↔ a = b ∧ d = e := by
  have hab := mul_add_lt_iff (a := a) (b := b) hd he
  have hba := mul_add_lt_iff (a := b) (b := a) he hd
  constructor
  · intro heq
    omega
  · rintro ⟨rfl, rfl⟩
    rfl

theorem valueFrom_eq_iff {base : ℕ} {ds es : List ℕ} (hlen : ds.length = es.length)
    (hd : ∀ d ∈ ds, d < base) (he : ∀ e ∈ es, e < base) (a b : ℕ) :
    valueFrom base a ds = valueFrom base b es ↔ a = b ∧ ds = es := by
  induction ds generalizing es a b with
  | nil =>
      cases es with
      | nil => simp [valueFrom]
      | cons e es => simp at hlen
  | cons d ds ih =>
      cases es with
      | nil => simp at hlen
      | cons e es =>
          have hrest := ih (by simpa using hlen) (fun x hx ↦ hd x (List.mem_cons_of_mem d hx))
            (fun x hx ↦ he x (List.mem_cons_of_mem e hx)) (base * a + d) (base * b + e)
          rw [valueFrom, valueFrom, hrest,
            mul_add_eq_iff (hd d List.mem_cons_self) (he e List.mem_cons_self), List.cons.injEq,
            and_assoc]

theorem valueFrom_lt_iff {base : ℕ} {ds es : List ℕ} (hlen : ds.length = es.length)
    (hd : ∀ d ∈ ds, d < base) (he : ∀ e ∈ es, e < base) (a b : ℕ) :
    valueFrom base a ds < valueFrom base b es ↔ a < b ∨ a = b ∧ ds < es := by
  induction ds generalizing es a b with
  | nil =>
      cases es with
      | nil => simp [valueFrom]
      | cons e es => simp at hlen
  | cons d ds ih =>
      cases es with
      | nil => simp at hlen
      | cons e es =>
          have hd₀ := hd d List.mem_cons_self
          have he₀ := he e List.mem_cons_self
          have hrest := ih (by simpa using hlen) (fun x hx ↦ hd x (List.mem_cons_of_mem d hx))
            (fun x hx ↦ he x (List.mem_cons_of_mem e hx)) (base * a + d) (base * b + e)
          rw [valueFrom, valueFrom, hrest, mul_add_lt_iff hd₀ he₀, mul_add_eq_iff hd₀ he₀,
            List.cons_lt_cons_iff]
          constructor
          · rintro ((hlt | ⟨rfl, hlt⟩) | ⟨⟨rfl, rfl⟩, hlt⟩)
            · exact Or.inl hlt
            · exact Or.inr ⟨rfl, Or.inl hlt⟩
            · exact Or.inr ⟨rfl, Or.inr ⟨rfl, hlt⟩⟩
          · rintro (hlt | ⟨rfl, hlt | ⟨rfl, hlt⟩⟩)
            · exact Or.inl (Or.inl hlt)
            · exact Or.inl (Or.inr ⟨rfl, hlt⟩)
            · exact Or.inr ⟨⟨rfl, rfl⟩, hlt⟩

/-- Digit strings of one length are ordered as their numbers. -/
theorem lt_iff_value_lt {base : ℕ} {ds es : List ℕ} (hlen : ds.length = es.length)
    (hd : ∀ d ∈ ds, d < base) (he : ∀ e ∈ es, e < base) :
    ds < es ↔ value base ds < value base es := by
  rw [valueFrom_lt_iff hlen hd he]
  simp

theorem eq_iff_value_eq {base : ℕ} {ds es : List ℕ} (hlen : ds.length = es.length)
    (hd : ∀ d ∈ ds, d < base) (he : ∀ e ∈ es, e < base) :
    ds = es ↔ value base ds = value base es := by
  rw [valueFrom_eq_iff hlen hd he]
  simp

end FixedWidth
