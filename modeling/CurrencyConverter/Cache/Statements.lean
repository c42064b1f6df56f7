import CurrencyConverter.Cache.Runs

/-!
# The calls of the cache, statement by statement

`get`, `put` and `sweepExpired` as their statements run while `mutex_` is held.  The clock
is read in the middle of a call.  On a coherent cache no statement is undefined, a call
leaves what the whole call of the model leaves, and it ends within a number of statements
that the capacity bounds.
-/

namespace CurrencyConverter

open RecencyList TimeAndSizeBoundedCache

/-- Where the holder of `mutex_` is.  The map iterator `it` is known by its key, and
`it->second` by the node it designates. -/
inductive Control (K V : Type)
  | getFind (key : K)
  | getExpired (key : K) (node : ℕ)
  | getErase (key : K) (node : ℕ)
  | getUnindex (key : K)
  | getSplice (node : ℕ)
  | getValue (node : ℕ)
  | putFind (key : K) (value : V)
  | putErase (key : K) (value : V) (node : ℕ)
  | putUnindex (key : K) (value : V)
  | putPushFront (key : K) (value : V)
  | putIndex (key : K)
  | putSize
  | putUnindexOldest
  | putPopBack
  | sweepBegin
  /-- The loop condition, and `isExpired` of the visited entry; `none` is `end()`. -/
  | sweepVisit (it : Option ℕ)
  | sweepUnindex (node : ℕ)
  | sweepErase (node : ℕ)
  | done (result : Option V)

namespace TimeAndSizeBoundedCache

variable {K V T : Type} [DecidableEq K] [Ticks T]

def withoutIndex (c : TimeAndSizeBoundedCache K V T) (key : K) : TimeAndSizeBoundedCache K V T :=
  { c with index := Function.update c.index key none }

def withoutNode (c : TimeAndSizeBoundedCache K V T) (node : ℕ) : TimeAndSizeBoundedCache K V T :=
  { c with entries := c.eraseNode node }

/-- The iterator after the one to `node`. -/
def following (c : TimeAndSizeBoundedCache K V T) (node : ℕ) : Option ℕ :=
  ((c.entries.dropWhile fun e ↦ e.node ≠ node).tail.head?).map Entry.node

/-- The next statement at the clock reading `now`, `none` where it is undefined. -/
def stmt (now : T) (c : TimeAndSizeBoundedCache K V T) :
    Control K V → Option (Control K V × TimeAndSizeBoundedCache K V T)
  | .getFind key =>
      match c.index key with
      | none => some (.done none, c)
      | some node => some (.getExpired key node, c)
  | .getExpired key node =>
      match c.deref node with
      | none => none
      | some e =>
          if isExpired c.maxAge now e.insertedAt then some (.getErase key node, c)
          else some (.getSplice node, c)
  | .getErase key node =>
      match c.deref node with
      | none => none
      | some _ => some (.getUnindex key, c.withoutNode node)
  | .getUnindex key => some (.done none, c.withoutIndex key)
  | .getSplice node =>
      match c.deref node with
      | none => none
      | some e => some (.getValue node, { c with entries := e :: c.eraseNode node })
  | .getValue node =>
      match c.deref node with
      | none => none
      | some e => some (.done (some e.value), c)
  | .putFind key value =>
      match c.index key with
      | none => some (.putPushFront key value, c)
      | some node => some (.putErase key value node, c)
  | .putErase key value node =>
      match c.deref node with
      | none => none
      | some _ => some (.putUnindex key value, c.withoutNode node)
  | .putUnindex key value => some (.putPushFront key value, c.withoutIndex key)
  | .putPushFront key value =>
      some (.putIndex key, { c with
        entries := ⟨c.nextNode, key, value, now⟩ :: c.entries
        nextNode := c.nextNode + 1 })
  | .putIndex key =>
      match c.entries.head? with
      | none => none
      | some e => some (.putSize, { c with index := Function.update c.index key (some e.node) })
  | .putSize =>
      if c.maxElements < c.entries.length then some (.putUnindexOldest, c)
      else some (.done none, c)
  | .putUnindexOldest =>
      match c.entries.getLast? with
      | none => none
      | some oldest => some (.putPopBack, c.withoutIndex oldest.key)
  | .putPopBack =>
      match c.entries.getLast? with
      | none => none
      | some _ => some (.done none, { c with entries := c.entries.dropLast })
  | .sweepBegin => some (.sweepVisit (c.entries.head?.map Entry.node), c)
  | .sweepVisit none => some (.done none, c)
  | .sweepVisit (some node) =>
      match c.deref node with
      | none => none
      | some e =>
          if isExpired c.maxAge now e.insertedAt then some (.sweepUnindex node, c)
          else some (.sweepVisit (c.following node), c)
  | .sweepUnindex node =>
      match c.deref node with
      | none => none
      | some e => some (.sweepErase node, c.withoutIndex e.key)
  | .sweepErase node =>
      match c.deref node with
      | none => none
      | some _ => some (.sweepVisit (c.following node), c.withoutNode node)
  | .done _ => none

variable {c : TimeAndSizeBoundedCache K V T}

omit [DecidableEq K] [Ticks T] in
theorem node_of_deref {node : ℕ} {e : Entry K V T} (h : c.deref node = some e) : e.node = node := by
  simpa using List.find?_some h

omit [DecidableEq K] [Ticks T] in
theorem Linked.exists_deref (h : c.Linked) {k : K} {node : ℕ} (hindex : c.index k = some node) :
    ∃ e, c.deref node = some e := by
  obtain ⟨e, he, -, rfl⟩ := (h.index_iff k node).mp hindex
  exact ⟨e, h.deref_node he⟩

/-! ## `get` -/

/-- Where a `get` of `key` on `c` can be, after statements at the readings `ts`, the latest
first. -/
inductive GetAt (c : TimeAndSizeBoundedCache K V T) (key : K) :
    List T → Control K V → TimeAndSizeBoundedCache K V T → Prop
  | find : GetAt c key [] (.getFind key) c
  | found {t : T} {node : ℕ} (hindex : c.index key = some node) :
      GetAt c key [t] (.getExpired key node) c
  | expired {t now : T} {node : ℕ} {e : Entry K V T} (hindex : c.index key = some node)
      (hderef : c.deref node = some e) (hx : isExpired c.maxAge now e.insertedAt = true) :
      GetAt c key [now, t] (.getErase key node) c
  | erased {t now t' : T} {node : ℕ} {e : Entry K V T} (hindex : c.index key = some node)
      (hderef : c.deref node = some e) (hx : isExpired c.maxAge now e.insertedAt = true) :
      GetAt c key [t', now, t] (.getUnindex key) (c.withoutNode node)
  | live {t now : T} {node : ℕ} {e : Entry K V T} (hindex : c.index key = some node)
      (hderef : c.deref node = some e) (hx : isExpired c.maxAge now e.insertedAt = false) :
      GetAt c key [now, t] (.getSplice node) c
  | spliced {t now t' : T} {node : ℕ} {e : Entry K V T} (hindex : c.index key = some node)
      (hderef : c.deref node = some e) (hx : isExpired c.maxAge now e.insertedAt = false) :
      GetAt c key [t', now, t] (.getValue node) { c with entries := e :: c.eraseNode node }
  | done {ts : List T} {now : T} (hnow : now ∈ ts) {result : Option V}
      {c' : TimeAndSizeBoundedCache K V T} (hget : c.get now key = some (result, c'))
      (hlen : ts.length ≤ 4) : GetAt c key ts (.done result) c'

/-- From everywhere but its end a `get` has a next statement. -/
theorem GetAt.stmt (hlinked : c.Linked) {key : K} {ts : List T} {place : Control K V}
    {f : TimeAndSizeBoundedCache K V T} (h : GetAt c key ts place f) (t : T) :
    (∃ result, place = .done result) ∨
      ∃ place' f', stmt t f place = some (place', f') ∧ GetAt c key (t :: ts) place' f' := by
  cases h with
  | find =>
      right
      cases hindex : c.index key with
      | none =>
          have hget : c.get t key = some (none, c) := by simp only [get, hindex]
          exact ⟨_, _, by simp only [TimeAndSizeBoundedCache.stmt, hindex],
            .done List.mem_cons_self hget (by simp)⟩
      | some node =>
          exact ⟨_, _, by simp only [TimeAndSizeBoundedCache.stmt, hindex], .found hindex⟩
  | found hindex =>
      right
      obtain ⟨e, hderef⟩ := hlinked.exists_deref hindex
      cases hx : isExpired c.maxAge t e.insertedAt with
      | true =>
          exact ⟨_, _, by simp only [TimeAndSizeBoundedCache.stmt, hderef, hx, if_true],
            .expired hindex hderef hx⟩
      | false =>
          exact ⟨_, _, by simp [TimeAndSizeBoundedCache.stmt, hderef, hx],
            .live hindex hderef hx⟩
  | expired hindex hderef hx =>
      exact .inr ⟨_, _, by simp only [TimeAndSizeBoundedCache.stmt, hderef],
        .erased hindex hderef hx⟩
  | @erased t₀ now t' node e hindex hderef hx =>
      have hget : c.get now key = some (none, (c.withoutNode node).withoutIndex key) := by
        simp only [get, hindex, hderef, hx, if_true]
        rfl
      exact .inr ⟨_, _, rfl, .done (by simp) hget (by simp)⟩
  | live hindex hderef hx =>
      exact .inr ⟨_, _, by simp only [TimeAndSizeBoundedCache.stmt, hderef],
        .spliced hindex hderef hx⟩
  | @spliced t₀ now t' node e hindex hderef hx =>
      have hget : c.get now key =
          some (some e.value, { c with entries := e :: c.eraseNode node }) := by
        simp [get, hindex, hderef, hx]
      refine .inr ⟨_, _, ?_, .done (by simp) hget (by simp)⟩
      simp [TimeAndSizeBoundedCache.stmt, deref, node_of_deref hderef]
  | done _ _ _ => exact .inl ⟨_, rfl⟩

/-! ## `put` -/

/-- The entry of `put` is in the list, and not in the index yet. -/
def pushed (f : TimeAndSizeBoundedCache K V T) (now : T) (key : K) (value : V) :
    TimeAndSizeBoundedCache K V T :=
  { f with
    entries := ⟨f.nextNode, key, value, now⟩ :: f.entries
    nextNode := f.nextNode + 1 }

/-- Where a `put` on `c` can be; `f₀` is what is left once the old entry is gone. -/
inductive PutAt (c : TimeAndSizeBoundedCache K V T) (key : K) (value : V) :
    List T → Control K V → TimeAndSizeBoundedCache K V T → Prop
  | find : PutAt c key value [] (.putFind key value) c
  | found {t : T} {node : ℕ} (hindex : c.index key = some node) :
      PutAt c key value [t] (.putErase key value node) c
  | erased {t t' : T} {node : ℕ} {e : Entry K V T} (hindex : c.index key = some node)
      (hderef : c.deref node = some e) :
      PutAt c key value [t', t] (.putUnindex key value) (c.withoutNode node)
  | dropped {ts : List T} {f₀ : TimeAndSizeBoundedCache K V T} (hdrop : c.dropKey key = some f₀)
      (hlen : ts.length ≤ 3) : PutAt c key value ts (.putPushFront key value) f₀
  | pushed {ts : List T} {now : T} (hnow : now ∈ ts) {f₀ : TimeAndSizeBoundedCache K V T}
      (hdrop : c.dropKey key = some f₀) (hlen : ts.length ≤ 4) :
      PutAt c key value ts (.putIndex key) (f₀.pushed now key value)
  | indexed {ts : List T} {now : T} (hnow : now ∈ ts) {f₀ : TimeAndSizeBoundedCache K V T}
      (hdrop : c.dropKey key = some f₀) (hlen : ts.length ≤ 5) :
      PutAt c key value ts .putSize (f₀.pushFront now key value)
  | full {ts : List T} {now : T} (hnow : now ∈ ts) {f₀ : TimeAndSizeBoundedCache K V T}
      (hdrop : c.dropKey key = some f₀)
      (hfull : f₀.maxElements < (f₀.pushFront now key value).entries.length)
      (hlen : ts.length ≤ 6) :
      PutAt c key value ts .putUnindexOldest (f₀.pushFront now key value)
  | unindexed {ts : List T} {now : T} (hnow : now ∈ ts) {f₀ : TimeAndSizeBoundedCache K V T}
      (hdrop : c.dropKey key = some f₀)
      (hfull : f₀.maxElements < (f₀.pushFront now key value).entries.length)
      {oldest : Entry K V T}
      (hlast : (f₀.pushFront now key value).entries.getLast? = some oldest)
      (hlen : ts.length ≤ 7) :
      PutAt c key value ts .putPopBack ((f₀.pushFront now key value).withoutIndex oldest.key)
  | done {ts : List T} {now : T} (hnow : now ∈ ts) {c' : TimeAndSizeBoundedCache K V T}
      (hput : c.put now key value = some c') (hlen : ts.length ≤ 8) :
      PutAt c key value ts (.done none) c'

theorem PutAt.stmt (hlinked : c.Linked) {key : K} {value : V} {ts : List T}
    {place : Control K V} {f : TimeAndSizeBoundedCache K V T} (h : PutAt c key value ts place f)
    (t : T) :
    (∃ result, place = .done result) ∨
      ∃ place' f', stmt t f place = some (place', f') ∧ PutAt c key value (t :: ts) place' f' := by
  cases h with
  | find =>
      right
      cases hindex : c.index key with
      | none =>
          have hdrop : c.dropKey key = some c := by simp only [dropKey, hindex]
          exact ⟨_, _, by simp only [TimeAndSizeBoundedCache.stmt, hindex],
            .dropped hdrop (by simp)⟩
      | some node =>
          exact ⟨_, _, by simp only [TimeAndSizeBoundedCache.stmt, hindex], .found hindex⟩
  | found hindex =>
      obtain ⟨e, hderef⟩ := hlinked.exists_deref hindex
      exact .inr ⟨_, _, by simp only [TimeAndSizeBoundedCache.stmt, hderef],
        .erased hindex hderef⟩
  | @erased _ _ node _ hindex hderef =>
      have hdrop : c.dropKey key = some ((c.withoutNode node).withoutIndex key) := by
        simp only [dropKey, hindex, hderef]
        rfl
      exact .inr ⟨_, _, rfl, .dropped hdrop (by simp)⟩
  | dropped hdrop hlen =>
      exact .inr ⟨_, _, rfl, .pushed List.mem_cons_self hdrop (Nat.succ_le_succ hlen)⟩
  | pushed hnow hdrop hlen =>
      exact .inr ⟨_, _, rfl, .indexed (List.mem_cons_of_mem _ hnow) hdrop (Nat.succ_le_succ hlen)⟩
  | @indexed _ now hnow f₀ hdrop hlen =>
      right
      by_cases hfull : f₀.maxElements < (f₀.pushFront now key value).entries.length
      · exact ⟨_, _, if_pos hfull, .full (List.mem_cons_of_mem _ hnow) hdrop hfull
          (Nat.succ_le_succ hlen)⟩
      · have hput : c.put now key value = some (f₀.pushFront now key value) := by
          simp only [put, hdrop, evictOldest]
          exact if_neg hfull
        exact ⟨_, _, if_neg hfull, .done (List.mem_cons_of_mem _ hnow) hput (by grind)⟩
  | @full _ now hnow f₀ hdrop hfull hlen =>
      have hlast : (f₀.pushFront now key value).entries.getLast? =
          some ((f₀.pushFront now key value).entries.getLast (List.cons_ne_nil _ _)) :=
        List.getLast?_eq_some_getLast _
      exact .inr ⟨_, _, by simp only [TimeAndSizeBoundedCache.stmt, hlast],
        .unindexed (List.mem_cons_of_mem _ hnow) hdrop hfull hlast (Nat.succ_le_succ hlen)⟩
  | @unindexed _ now hnow f₀ hdrop hfull oldest hlast hlen =>
      right
      have hput : c.put now key value =
          some { (f₀.pushFront now key value).withoutIndex oldest.key with
            entries := (f₀.pushFront now key value).entries.dropLast } := by
        simp only [put, hdrop, evictOldest, hlast]
        exact if_pos hfull
      have hlast' : ((f₀.pushFront now key value).withoutIndex oldest.key).entries.getLast? =
          some oldest := hlast
      refine ⟨_, _, ?_, .done (List.mem_cons_of_mem _ hnow) hput (Nat.succ_le_succ hlen)⟩
      simp only [TimeAndSizeBoundedCache.stmt, hlast']
      rfl
  | done _ _ _ => exact .inl ⟨_, rfl⟩

/-! ## `sweepExpired` -/

section Visit

variable {f : TimeAndSizeBoundedCache K V T} {kept rest : List (Entry K V T)} {e : Entry K V T}

omit [DecidableEq K] [Ticks T] in
/-- The entries before the visited one are other nodes. -/
theorem ne_node_of_kept (hnodes : Distinct Entry.node (kept ++ e :: rest)) :
    (∀ x ∈ kept, x.node ≠ e.node) ∧ ∀ x ∈ rest, x.node ≠ e.node := by
  have hparts := List.nodup_append.mp (by simpa [Distinct] using hnodes)
  constructor
  · intro x hx
    exact hparts.2.2 _ (List.mem_map_of_mem hx) _ List.mem_cons_self
  · intro x hx heq
    exact (List.nodup_cons.mp hparts.2.1).1 (heq ▸ List.mem_map_of_mem hx)

omit [DecidableEq K] [Ticks T] in
theorem deref_visited (hnodes : Distinct Entry.node (kept ++ e :: rest))
    (hentries : f.entries = kept ++ e :: rest) : f.deref e.node = some e := by
  have hfind := hnodes.find_eq_some.mpr ⟨List.mem_append_right _ List.mem_cons_self, rfl⟩
  rw [deref, hentries]
  exact hfind

omit [DecidableEq K] [Ticks T] in
theorem following_visited (hnodes : Distinct Entry.node (kept ++ e :: rest))
    (hentries : f.entries = kept ++ e :: rest) :
    f.following e.node = rest.head?.map Entry.node := by
  have hkept : ∀ x ∈ kept, decide (x.node ≠ e.node) = true :=
    fun x hx ↦ decide_eq_true ((ne_node_of_kept hnodes).1 x hx)
  rw [following, hentries, List.dropWhile_append_of_pos hkept]
  simp

omit [DecidableEq K] [Ticks T] in
theorem eraseNode_visited (hnodes : Distinct Entry.node (kept ++ e :: rest))
    (hentries : f.entries = kept ++ e :: rest) : f.eraseNode e.node = kept ++ rest := by
  obtain ⟨hkept, hrest⟩ := ne_node_of_kept hnodes
  have hkept' : kept.filter (fun x ↦ x.node ≠ e.node) = kept := by simpa using hkept
  have hrest' : rest.filter (fun x ↦ x.node ≠ e.node) = rest := by simpa using hrest
  rw [eraseNode, hentries, List.filter_append, hkept', List.filter_cons_of_neg (by simp), hrest']

end Visit

/-- A sweep of `c` has visited entries at the readings given and kept those of `kept`; `rest`
is still to be visited.  Whatever clock made these readings, the whole sweep under it goes
on from here. -/
structure Swept (c : TimeAndSizeBoundedCache K V T) (readings : List T)
    (kept rest : List (Entry K V T)) (f : TimeAndSizeBoundedCache K V T) : Prop where
  frame : f = { c with entries := kept ++ rest, index := f.index }
  sublist : List.Sublist (kept ++ rest) c.entries
  visits : readings.length + rest.length = c.entries.length
  result : ∀ clock : ℕ → T, (∀ i t, readings[i]? = some t → clock i = t) →
    sweepFrom c.maxAge clock 0 c.entries c.index =
      (kept ++ (sweepFrom c.maxAge clock readings.length rest f.index).1,
        (sweepFrom c.maxAge clock readings.length rest f.index).2)

namespace Swept

variable {readings : List T} {kept rest : List (Entry K V T)} {e : Entry K V T}
  {f : TimeAndSizeBoundedCache K V T}

theorem start (c : TimeAndSizeBoundedCache K V T) : Swept c [] [] c.entries c where
  frame := rfl
  sublist := List.Sublist.refl _
  visits := Nat.zero_add _
  result _ _ := rfl

omit [DecidableEq K] [Ticks T] in
theorem clock_of_append {clock : ℕ → T} {now : T}
    (hclock : ∀ i t, (readings ++ [now])[i]? = some t → clock i = t) :
    (∀ i t, readings[i]? = some t → clock i = t) ∧ clock readings.length = now := by
  constructor
  · intro i t ht
    apply hclock
    rw [List.getElem?_append_left (List.getElem?_eq_some_iff.mp ht).1]
    exact ht
  · apply hclock
    simp

theorem entries_eq (h : Swept c readings kept rest f) : f.entries = kept ++ rest := by
  rw [h.frame]

theorem nodes (h : Swept c readings kept rest f) (hlinked : c.Linked) :
    Distinct Entry.node (kept ++ rest) := hlinked.nodes.sublist h.sublist

/-- A fresh entry stays. -/
theorem keep (h : Swept c readings kept (e :: rest) f) {now : T}
    (hx : isExpired c.maxAge now e.insertedAt = false) :
    Swept c (readings ++ [now]) (kept ++ [e]) rest f where
  frame := by
    rw [List.append_assoc]
    exact h.frame
  sublist := by
    rw [List.append_assoc]
    exact h.sublist
  visits := by
    have := h.visits
    simp only [List.length_append, List.length_cons, List.length_nil] at this ⊢
    omega
  result clock hclock := by
    obtain ⟨hbefore, hnow⟩ := clock_of_append hclock
    rw [h.result clock hbefore]
    simp [sweepFrom, hnow, hx]

/-- An expired entry goes. -/
theorem drop (h : Swept c readings kept (e :: rest) f) {now : T}
    (hx : isExpired c.maxAge now e.insertedAt = true) :
    Swept c (readings ++ [now]) kept rest
      { f.withoutIndex e.key with entries := kept ++ rest } where
  frame := by
    rw [h.frame]
    rfl
  sublist := (List.Sublist.append_left (List.sublist_cons_self e rest) kept).trans h.sublist
  visits := by
    have := h.visits
    simp only [List.length_append, List.length_cons, List.length_nil] at this ⊢
    omega
  result clock hclock := by
    obtain ⟨hbefore, hnow⟩ := clock_of_append hclock
    rw [h.result clock hbefore]
    simp [sweepFrom, hnow, hx, withoutIndex]

/-- Once every entry is visited the sweep is done. -/
theorem finish (h : Swept c readings kept [] f) {clock : ℕ → T}
    (hclock : ∀ i t, readings[i]? = some t → clock i = t) : f = c.sweepExpired clock := by
  have hresult := h.result clock hclock
  simp only [sweepFrom, List.append_nil] at hresult
  rw [h.frame, sweepExpired, hresult, List.append_nil]

end Swept

/-- Where a sweep of `c` can be. -/
inductive SweepAt (c : TimeAndSizeBoundedCache K V T) :
    List T → Control K V → TimeAndSizeBoundedCache K V T → Prop
  | begin : SweepAt c [] .sweepBegin c
  | visit {ts readings : List T} {kept rest : List (Entry K V T)}
      {f : TimeAndSizeBoundedCache K V T} (hswept : Swept c readings kept rest f)
      (hread : ∀ t ∈ readings, t ∈ ts) (hlen : ts.length ≤ 3 * readings.length + 1) :
      SweepAt c ts (.sweepVisit (rest.head?.map Entry.node)) f
  | expired {ts readings : List T} {kept rest : List (Entry K V T)} {e : Entry K V T}
      {f : TimeAndSizeBoundedCache K V T} (hswept : Swept c readings kept (e :: rest) f) {now : T}
      (hx : isExpired c.maxAge now e.insertedAt = true) (hread : ∀ t ∈ readings ++ [now], t ∈ ts)
      (hlen : ts.length ≤ 3 * readings.length + 2) : SweepAt c ts (.sweepUnindex e.node) f
  | unindexed {ts readings : List T} {kept rest : List (Entry K V T)} {e : Entry K V T}
      {f : TimeAndSizeBoundedCache K V T} (hswept : Swept c readings kept (e :: rest) f) {now : T}
      (hx : isExpired c.maxAge now e.insertedAt = true) (hread : ∀ t ∈ readings ++ [now], t ∈ ts)
      (hlen : ts.length ≤ 3 * readings.length + 3) :
      SweepAt c ts (.sweepErase e.node) (f.withoutIndex e.key)
  | done {ts : List T} {clock : ℕ → T} (hclock : ∀ i, clock i ∈ ts)
      (hlen : ts.length ≤ 3 * c.entries.length + 2) :
      SweepAt c ts (.done none) (c.sweepExpired clock)

theorem SweepAt.stmt (hlinked : c.Linked) {ts : List T} {place : Control K V}
    {f : TimeAndSizeBoundedCache K V T} (h : SweepAt c ts place f) (t : T) :
    (∃ result, place = .done result) ∨
      ∃ place' f', stmt t f place = some (place', f') ∧ SweepAt c (t :: ts) place' f' := by
  cases h with
  | begin => exact .inr ⟨_, _, rfl, .visit (Swept.start c) (by simp) (by simp)⟩
  | @visit _ readings kept rest _ hswept hread hlen =>
      right
      cases rest with
      | nil =>
          -- the readings of the visits, and any later one beyond them
          have hclock : ∀ i s, readings[i]? = some s → readings.getD i t = s := by
            intro i s hs
            simp [hs]
          have hfinish : f = c.sweepExpired (readings.getD · t) := hswept.finish hclock
          refine ⟨.done none, c.sweepExpired (readings.getD · t), ?_, .done ?_ ?_⟩
          · rw [← hfinish]
            rfl
          · intro i
            rw [List.getD_eq_getElem?_getD]
            cases hs : readings[i]? with
            | none => exact List.mem_cons_self
            | some s => exact List.mem_cons_of_mem _ (hread s (List.mem_of_getElem? hs))
          · have hvisits := hswept.visits
            simp only [List.length_nil, Nat.add_zero] at hvisits
            simp only [List.length_cons]
            omega
      | cons e rest =>
          have hnodes := hswept.nodes hlinked
          have hderef := deref_visited hnodes hswept.entries_eq
          have hage : f.maxAge = c.maxAge := by rw [hswept.frame]
          have hread' : ∀ s ∈ readings ++ [t], s ∈ t :: ts := by
            intro s hs
            rcases List.mem_append.mp hs with hs | hs
            · exact List.mem_cons_of_mem _ (hread s hs)
            · rw [List.mem_singleton.mp hs]
              exact List.mem_cons_self
          cases hx : isExpired c.maxAge t e.insertedAt with
          | true =>
              refine ⟨.sweepUnindex e.node, f, ?_, .expired hswept hx hread' ?_⟩
              · simp [TimeAndSizeBoundedCache.stmt, hderef, hage, hx]
              · exact Nat.succ_le_succ hlen
          | false =>
              refine ⟨.sweepVisit (rest.head?.map Entry.node), f, ?_,
                .visit (hswept.keep hx) hread' ?_⟩
              · simp [TimeAndSizeBoundedCache.stmt, hderef, hage, hx,
                  following_visited hnodes hswept.entries_eq]
              · simp only [List.length_cons, List.length_append, List.length_nil]
                omega
  | expired hswept hx hread hlen =>
      have hderef := deref_visited (hswept.nodes hlinked) hswept.entries_eq
      exact .inr ⟨_, _, by simp only [TimeAndSizeBoundedCache.stmt, hderef],
        .unindexed hswept hx (fun s hs ↦ List.mem_cons_of_mem _ (hread s hs))
          (Nat.succ_le_succ hlen)⟩
  | @unindexed _ readings kept rest e f hswept now hx hread hlen =>
      right
      have hnodes := hswept.nodes hlinked
      have hentries : (f.withoutIndex e.key).entries = kept ++ e :: rest := hswept.entries_eq
      refine ⟨.sweepVisit (rest.head?.map Entry.node),
        { f.withoutIndex e.key with entries := kept ++ rest }, ?_,
        .visit (hswept.drop hx) (fun s hs ↦ List.mem_cons_of_mem _ (hread s hs)) ?_⟩
      · simp only [TimeAndSizeBoundedCache.stmt, deref_visited hnodes hentries,
          following_visited hnodes hentries, withoutNode, eraseNode_visited hnodes hentries]
      · simp only [List.length_cons, List.length_append, List.length_nil]
        omega
  | done _ _ => exact .inl ⟨_, rfl⟩

/-! ## Whole calls -/

theorem GetAt.length_le {key : K} {ts : List T} {place : Control K V}
    {f : TimeAndSizeBoundedCache K V T} (h : GetAt c key ts place f) : ts.length ≤ 4 := by
  cases h with
  | done _ _ hlen => exact hlen
  | _ => simp

omit [Ticks T] in
theorem PutAt.length_le {key : K} {value : V} {ts : List T} {place : Control K V}
    {f : TimeAndSizeBoundedCache K V T} (h : PutAt c key value ts place f) : ts.length ≤ 8 := by
  cases h with
  | find => simp
  | found => simp
  | erased => simp
  | _ => omega

theorem SweepAt.length_le {ts : List T} {place : Control K V}
    {f : TimeAndSizeBoundedCache K V T} (h : SweepAt c ts place f) :
    ts.length ≤ 3 * c.entries.length + 2 := by
  cases h with
  | begin => simp
  | visit hswept _ hlen =>
      have := hswept.visits
      omega
  | expired hswept _ _ hlen =>
      have := hswept.visits
      simp only [List.length_cons] at this
      omega
  | unindexed hswept _ _ hlen =>
      have := hswept.visits
      simp only [List.length_cons] at this
      omega
  | done _ hlen => exact hlen

/-- A `get` that returns has done the whole call, at one of its readings. -/
theorem GetAt.get_eq {key : K} {ts : List T} {result : Option V}
    {f : TimeAndSizeBoundedCache K V T} (h : GetAt c key ts (.done result) f) :
    ∃ now ∈ ts, c.get now key = some (result, f) := by
  cases h with
  | done hnow hget _ => exact ⟨_, hnow, hget⟩

omit [Ticks T] in
theorem PutAt.put_eq {key : K} {value : V} {ts : List T} {result : Option V}
    {f : TimeAndSizeBoundedCache K V T} (h : PutAt c key value ts (.done result) f) :
    ∃ now ∈ ts, c.put now key value = some f := by
  cases h with
  | done hnow hput _ => exact ⟨_, hnow, hput⟩

theorem SweepAt.sweepExpired_eq {ts : List T} {result : Option V}
    {f : TimeAndSizeBoundedCache K V T} (h : SweepAt c ts (.done result) f) :
    ∃ clock : ℕ → T, (∀ i, clock i ∈ ts) ∧ f = c.sweepExpired clock := by
  cases h with
  | done hclock _ => exact ⟨_, hclock, rfl⟩

end TimeAndSizeBoundedCache

end CurrencyConverter
