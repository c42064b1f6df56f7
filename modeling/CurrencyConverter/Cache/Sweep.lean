import CurrencyConverter.Cache.Retention

/-!
# A sweep under a moving clock

A sweep reads the clock for each entry it visits.  What it keeps is therefore no
cut at one instant, but it lies between two of them: the first reading and the last.
-/

namespace CurrencyConverter

open RecencyList TimeAndSizeBoundedCache CoherentCache

variable {K V : Type}

/-- The readings of the first `n` visits do not go back. -/
def NeverBack (clock : ℕ → ℤ) (n : ℕ) : Prop := ∀ i j, i ≤ j → j < n → clock i ≤ clock j

theorem isExpired_mono {maxAge now later insertedAt : ℤ} (hle : now ≤ later)
    (h : isExpired maxAge now insertedAt = true) : isExpired maxAge later insertedAt = true := by
  simp only [isExpired, decide_eq_true_eq] at h ⊢
  omega

/-- Each entry is visited once, the `j`-th one under the `j`-th reading. -/
theorem survivors_eq_filter {T : Type} [Ticks T] (maxAge : ℤ) (clock : ℕ → T) (i : ℕ)
    (l : List (Entry K V T)) :
    survivors maxAge clock i l = ((l.zipIdx i).filter fun visit ↦
      !isExpired maxAge (clock visit.2) visit.1.insertedAt).map Prod.fst := by
  induction l generalizing i with
  | nil => rfl
  | cons e rest ih =>
      by_cases hx : isExpired maxAge (clock i) e.insertedAt = true
      · simp [survivors, hx, ih]
      · simp [survivors, hx, ih]

theorem mem_survivors {T : Type} [Ticks T] {maxAge : ℤ} {clock : ℕ → T} {l : List (Entry K V T)}
    {e : Entry K V T} :
    e ∈ survivors maxAge clock 0 l ↔
      ∃ j, l[j]? = some e ∧ isExpired maxAge (clock j) e.insertedAt = false := by
  rw [survivors_eq_filter]
  constructor
  · intro he
    obtain ⟨⟨x, j⟩, hvisit, rfl⟩ := List.mem_map.mp he
    obtain ⟨hmem, hx⟩ := List.mem_filter.mp hvisit
    exact ⟨j, List.mk_mem_zipIdx_iff_getElem?.mp hmem, by simpa using hx⟩
  · rintro ⟨j, hj, hx⟩
    refine List.mem_map.mpr ⟨(e, j), List.mem_filter.mpr ⟨?_, ?_⟩, rfl⟩
    · exact List.mk_mem_zipIdx_iff_getElem?.mpr hj
    · simp [hx]

section Clock

variable {maxAge : ℤ} {clock : ℕ → ℤ} {l : List (Entry K V ℤ)} {e : Entry K V ℤ}

theorem not_mem_survivors (hclock : NeverBack clock l.length)
    (hx : isExpired maxAge (clock 0) e.insertedAt = true) :
    e ∉ survivors maxAge clock 0 l := by
  intro he
  obtain ⟨j, hj, hlive⟩ := mem_survivors.mp he
  obtain ⟨hlt, _⟩ := List.getElem?_eq_some_iff.mp hj
  rw [isExpired_mono (hclock 0 j (Nat.zero_le j) hlt) hx] at hlive
  cases hlive

theorem mem_survivors_of_fresh (hclock : NeverBack clock l.length) (he : e ∈ l)
    (hlive : isExpired maxAge (clock (l.length - 1)) e.insertedAt = false) :
    e ∈ survivors maxAge clock 0 l := by
  obtain ⟨j, hj⟩ := List.mem_iff_getElem?.mp he
  obtain ⟨hlt, _⟩ := List.getElem?_eq_some_iff.mp hj
  refine mem_survivors.mpr ⟨j, hj, ?_⟩
  by_contra hx
  have hle : clock j ≤ clock (l.length - 1) := hclock j _ (by omega) (by omega)
  rw [isExpired_mono hle (by simpa using hx)] at hlive
  cases hlive

end Clock

variable [DecidableEq K]

/-- What is gone stays gone until it is put again. -/
theorem absent_of_no_put {T : Type} [Ticks T] (c : CoherentCache K V T) {k : K}
    (habsent : ∀ e ∈ c.entries, e.key ≠ k) {later : List (Op K V T)}
    (hlater : ∀ now v, .put now k v ∉ later) : ∀ e ∈ (c.after later).entries, e.key ≠ k := by
  induction later with
  | nil => exact habsent
  | cons op later ih =>
      have hbefore := ih fun now v h ↦ hlater now v (List.mem_cons_of_mem op h)
      intro e he
      rcases mem_step _ he with ⟨hmem, _⟩ | rfl
      · exact hbefore e hmem
      · rintro rfl
        exact hlater _ _ List.mem_cons_self

theorem after_append {T : Type} [Ticks T] (c : CoherentCache K V T) (later ops : List (Op K V T)) :
    c.after (later ++ ops) = (c.after ops).after later := by
  induction later with
  | nil => rfl
  | cons op later ih => simp [ih]

/-- A sweep that starts when the last `put` of a key is past its age leaves nothing
under the key. -/
theorem absent_of_swept {maxAge : ℤ} {maxElements : ℕ} (hpos : 0 < maxElements)
    {ops : List (Op K V ℤ)} {clock : ℕ → ℤ} {k : K} {t₀ : ℤ} {v : V}
    (hclock : NeverBack clock ((empty maxAge maxElements hpos).after ops).entries.length)
    (hput : lastPut k ops = some (t₀, v)) (hlate : t₀ + maxAge * 60000000000 < clock 0) :
    ∀ e ∈ ((empty maxAge maxElements hpos).after (.sweepExpired clock :: ops)).entries,
      e.key ≠ k := by
  rintro e he rfl
  have hlast := lastPut_of_mem _ he
  rw [lastPut_cons_of_ne (by simp), hput] at hlast
  cases hlast
  rw [after_cons, step_sweepExpired, after_maxAge] at he
  have hx : isExpired maxAge (clock 0) e.insertedAt = true := by
    simp only [isExpired, Ticks.ofMinutes, decide_eq_true_eq]
    omega
  exact not_mem_survivors hclock hx he

/-- A sweep visits every entry once, drops those past their age at its first reading,
keeps those within it at its last, in their order and as they were, and leaves the
index of the survivors.  In a run it ends an entry whose `put` is too long ago. -/
theorem sweep_removes_the_expired :
    (∀ (c : TimeAndSizeBoundedCache K V ℤ) (clock : ℕ → ℤ), c.Linked →
      NeverBack clock c.entries.length →
        (c.sweepExpired clock).entries = (c.entries.zipIdx.filter fun visit ↦
          !isExpired c.maxAge (clock visit.2) visit.1.insertedAt).map Prod.fst ∧
        (∀ e ∈ c.entries, isExpired c.maxAge (clock 0) e.insertedAt = true →
          e ∉ (c.sweepExpired clock).entries) ∧
        (∀ e ∈ c.entries, isExpired c.maxAge (clock (c.entries.length - 1)) e.insertedAt = false →
          e ∈ (c.sweepExpired clock).entries) ∧
        List.Sublist (c.sweepExpired clock).entries c.entries ∧
        ∀ k it, (c.sweepExpired clock).index k = some it ↔
          ∃ e ∈ (c.sweepExpired clock).entries, e.key = k ∧ e.node = it) ∧
    ∀ (maxAge : ℤ) (maxElements : ℕ) (hpos : 0 < maxElements) (later ops : List (Op K V ℤ))
      (clock : ℕ → ℤ) (k : K) (t₀ : ℤ) (v : V),
      NeverBack clock ((empty maxAge maxElements hpos).after ops).entries.length →
      lastPut k ops = some (t₀, v) → t₀ + maxAge * 60000000000 < clock 0 →
      (∀ now w, .put now k w ∉ later) →
      ∀ e ∈ ((empty maxAge maxElements hpos).after
        (later ++ .sweepExpired clock :: ops)).entries, e.key ≠ k := by
  constructor
  · intro c clock hlinked hclock
    rw [sweepExpired_entries]
    refine ⟨survivors_eq_filter .., fun e _ hx ↦ not_mem_survivors hclock hx,
      fun e he hlive ↦ mem_survivors_of_fresh hclock he hlive, survivors_sublist .., ?_⟩
    rw [← sweepExpired_entries]
    exact (hlinked.sweepFrom clock 0 [] c.entries c.index).index_iff
  · intro maxAge maxElements hpos later ops clock k t₀ v hclock hput hlate hlater
    rw [after_append]
    exact absent_of_no_put _ (absent_of_swept hpos hclock hput hlate) hlater

/-- Two hits do not save the entry put at 0 from the sweep after a minute. -/
theorem sweep_removes_the_expired_after_hits :
    ∀ e ∈ ((empty 1 4 (by decide)).after ([.get 60000000002 2] ++
      .sweepExpired (fun i ↦ 60000000001 + i) ::
        [.get 9 1, .put 8 2 20, .get 7 1, .put 0 1 10]) : CoherentCache ℕ ℕ ℤ).entries,
      e.key ≠ 1 := by
  refine sweep_removes_the_expired.2 1 4 (by decide) _ _ _ 1 0 10 ?_ rfl (by decide) (by simp)
  intro i j hle _
  simpa using hle

end CurrencyConverter
