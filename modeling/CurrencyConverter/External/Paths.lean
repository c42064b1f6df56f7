import CurrencyConverter.Domain.IsoDate
import CurrencyConverter.External.ClientFailures

/-!
# The paths of the requests

The client pastes codes and dates into a path without an escape.  For codes of letters
and digits nothing is lost: the path reads back as the query it was made for.
-/

namespace CurrencyConverter

variable {D : Type}

/-- An ASCII letter or digit. -/
def isalnum (b : UInt8) : Bool := isdigit b || (65 ≤ b && b ≤ 90) || (97 ≤ b && b ≤ 122)

def Alphanumeric (code : Str) : Prop := ∀ b ∈ code, isalnum b = true

instance (code : Str) : Decidable (Alphanumeric code) :=
  decidable_of_iff (code.all isalnum = true) List.all_eq_true

theorem Alphanumeric.not_mem {code : Str} (h : Alphanumeric code) {b : UInt8}
    (hb : isalnum b = false) : b ∉ code := by
  intro hmem
  rw [h b hmem] at hb
  cases hb

/-- A byte of the templates, or one of a code or a date: no blank, no control character,
no escape and no fragment. -/
def isPathByte (b : UInt8) : Bool := isalnum b || (str "/-.?=&").contains b

theorem isPathByte_of_isalnum {b : UInt8} (h : isalnum b = true) : isPathByte b = true := by
  rw [isPathByte, h]
  rfl

theorem mem_isoDate {s : Str} (hs : isIsoDate s = true) {b : UInt8} (hb : b ∈ s) :
    isdigit b = true ∨ b = 45 := by
  have hfields := isoFields_of_isIsoDate hs
  rw [hfields.eq] at hb
  have hcases : b ∈ s.take 4 ++ ((s.drop 5).take 2 ++ (s.drop 8).take 2) ∨ b = 45 := by
    simp only [List.mem_append, List.mem_cons] at hb ⊢
    tauto
  exact hcases.imp_left (hfields.digits b)

theorem isPathByte_of_mem_isoDate {s : Str} (hs : isIsoDate s = true) {b : UInt8} (hb : b ∈ s) :
    isPathByte b = true := by
  rcases mem_isoDate hs hb with hdigit | rfl
  · exact isPathByte_of_isalnum (by rw [isalnum, hdigit]; rfl)
  · decide

theorem not_mem_isoDate {s : Str} (hs : isIsoDate s = true) {b : UInt8} (hdigit : isdigit b = false)
    (hne : b ≠ 45) : b ∉ s := by
  intro hb
  rcases mem_isoDate hs hb with h | h
  · rw [h] at hdigit
    cases hdigit
  · exact hne h

/-! ## What the site reads off a path -/

def question : UInt8 := 63

def ampersand : UInt8 := 38

def readSymbols (parameters : Str) : Option (Str × Str) :=
  match parameters.splitOn ampersand with
  | [base, symbols] => do
      let source ← base.dropPrefix? (str "base=")
      let target ← symbols.dropPrefix? (str "symbols=")
      return (source, target)
  | _ => none

def readDays (days : Str) : Option DateRange :=
  if (days.drop 10).take 2 = str ".." then
    (DateRange.construct (days.take 10) (days.drop 12)).toOption
  else none

def readResource (resource source target : Str) : Option ((c : CacheId) × Query c) := do
  let days ← resource.dropPrefix? (str "/v1/")
  if days = str "latest" then return ⟨_, .latestRate source target⟩
  else
    let range ← readDays days
    return ⟨_, .history source target range⟩

/-- The query that a path asks, for a site that knows the three resources. -/
def readPath (path : Str) : Option ((c : CacheId) × Query c) :=
  match path.splitOn question with
  | [resource] => if resource = str "/v1/currencies" then some ⟨_, .listCurrencies⟩ else none
  | [resource, parameters] => do
      let (source, target) ← readSymbols parameters
      readResource resource source target
  | _ => none

theorem dropPrefix?_append_self (p s : Str) : (p ++ s).dropPrefix? p = some s :=
  List.dropPrefix?_append_of_beq s (beq_self_eq_true p)

theorem readDays_of_range (range : DateRange) :
    readDays (range.startDate ++ str ".." ++ range.endDate) = some range := by
  have hlen : range.startDate.length = 10 := (isIsoDate_iff.mp range.start_iso).1
  have hdays : range.startDate ++ str ".." ++ range.endDate =
      range.startDate ++ (str ".." ++ range.endDate) := List.append_assoc _ _ _
  have hdots : ((range.startDate ++ str ".." ++ range.endDate).drop 10).take 2 = str ".." := by
    rw [hdays, List.drop_left' hlen]
    rfl
  have hend : (range.startDate ++ str ".." ++ range.endDate).drop 12 = range.endDate := by
    apply List.drop_left'
    rw [List.length_append, hlen]
    rfl
  have hconstruct : DateRange.construct range.startDate range.endDate = .ok range :=
    DateRange.construct_eq_ok.mpr ⟨rfl, rfl⟩
  rw [readDays, if_pos hdots, hend, hdays, List.take_left' hlen, hconstruct]
  rfl

theorem readSymbols_of_codes {source target : Str} (hsource : Alphanumeric source)
    (htarget : Alphanumeric target) :
    readSymbols (str "base=" ++ source ++ str "&symbols=" ++ target) = some (source, target) := by
  have hbase : ampersand ∉ str "base=" ++ source := by
    rw [List.mem_append]
    exact not_or_intro (by decide) (hsource.not_mem (by decide))
  have hsymbols : ampersand ∉ str "symbols=" ++ target := by
    rw [List.mem_append]
    exact not_or_intro (by decide) (htarget.not_mem (by decide))
  have hsplit : (str "base=" ++ source ++ str "&symbols=" ++ target).splitOn ampersand =
      [str "base=" ++ source, str "symbols=" ++ target] := by
    have happ : str "base=" ++ source ++ str "&symbols=" ++ target =
        (str "base=" ++ source) ++ ampersand :: (str "symbols=" ++ target) := by
      rw [List.append_assoc]
      rfl
    rw [happ, List.splitOn_append_cons_self_of_not_mem hbase, List.splitOn_eq_singleton hsymbols]
  simp only [readSymbols, hsplit, dropPrefix?_append_self, Option.bind_eq_bind, Option.bind_some]
  rfl

/-- A path with parameters is read by its two parts. -/
theorem readPath_append {resource source target : Str} (hresource : question ∉ resource)
    (hsource : Alphanumeric source) (htarget : Alphanumeric target) :
    readPath (resource ++ str "?base=" ++ source ++ str "&symbols=" ++ target) =
      readResource resource source target := by
  have hparameters : question ∉ str "base=" ++ source ++ str "&symbols=" ++ target := by
    simp only [List.mem_append]
    have hs := hsource.not_mem (b := question) (by decide)
    have ht := htarget.not_mem (b := question) (by decide)
    rintro (((h | h) | h) | h)
    · exact absurd h (by decide)
    · exact hs h
    · exact absurd h (by decide)
    · exact ht h
  have happ : resource ++ str "?base=" ++ source ++ str "&symbols=" ++ target =
      resource ++ question :: (str "base=" ++ source ++ str "&symbols=" ++ target) := by
    simp only [List.append_assoc]
    rfl
  rw [happ]
  simp only [readPath, List.splitOn_append_cons_self_of_not_mem hresource,
    List.splitOn_eq_singleton hparameters, readSymbols_of_codes hsource htarget,
    Option.bind_eq_bind, Option.bind_some]

/-! ## The paths of the client -/

/-- The codes of the query are of letters and digits. -/
def Query.Plain {c : CacheId} : Query c → Prop
  | .listCurrencies => True
  | .latestRate source target => Alphanumeric source ∧ Alphanumeric target
  | .history source target _ => Alphanumeric source ∧ Alphanumeric target

theorem Query.plain_listCurrencies : Query.listCurrencies.Plain := trivial

theorem Query.readPath_path {c : CacheId} {query : Query c} (h : query.Plain) :
    readPath query.path = some ⟨c, query⟩ := by
  cases query with
  | listCurrencies => rfl
  | latestRate source target =>
      have hpath : (Query.latestRate source target).path =
          str "/v1/latest" ++ str "?base=" ++ source ++ str "&symbols=" ++ target := rfl
      rw [hpath, readPath_append (by decide) h.1 h.2]
      rfl
  | history source target range =>
      have hpath : (Query.history source target range).path =
          str "/v1/" ++ (range.startDate ++ str ".." ++ range.endDate) ++ str "?base=" ++ source ++
            str "&symbols=" ++ target := by
        simp only [path, FrankfurterClient.historyPath, List.append_assoc]
      have hresource : question ∉ str "/v1/" ++ (range.startDate ++ str ".." ++ range.endDate) := by
        simp only [List.mem_append]
        rintro (h | (h | h) | h)
        · exact absurd h (by decide)
        · exact not_mem_isoDate range.start_iso (by decide) (by decide) h
        · exact absurd h (by decide)
        · exact not_mem_isoDate range.end_iso (by decide) (by decide) h
      have hlatest : range.startDate ++ str ".." ++ range.endDate ≠ str "latest" := by
        intro heq
        have hlen := congrArg List.length heq
        have hstart := (isIsoDate_iff.mp range.start_iso).1
        have hlatest : (str "latest").length = 6 := by decide
        rw [List.length_append, List.length_append, hstart, hlatest] at hlen
        omega
      rw [hpath, readPath_append hresource h.1 h.2]
      simp only [readResource, dropPrefix?_append_self, Option.bind_eq_bind, Option.bind_some,
        if_neg hlatest, readDays_of_range]
      rfl

/-- Different queries have different paths. -/
theorem Query.eq_of_path {c c' : CacheId} {query : Query c} {query' : Query c'} (h : query.Plain)
    (h' : query'.Plain) (hpath : query.path = query'.path) :
    (⟨c, query⟩ : (c : CacheId) × Query c) = ⟨c', query'⟩ := by
  apply Option.some.inj
  rw [← readPath_path h, ← readPath_path h', hpath]

theorem isPathByte_append {s t : Str} (hs : ∀ b ∈ s, isPathByte b = true)
    (ht : ∀ b ∈ t, isPathByte b = true) : ∀ b ∈ s ++ t, isPathByte b = true := by
  intro b hb
  exact (List.mem_append.mp hb).elim (hs b) (ht b)

theorem isPathByte_parameters {resource source target : Str}
    (hresource : ∀ b ∈ resource, isPathByte b = true) (hsource : Alphanumeric source)
    (htarget : Alphanumeric target) :
    ∀ b ∈ resource ++ source ++ str "&symbols=" ++ target, isPathByte b = true := by
  have hcode : ∀ {code : Str}, Alphanumeric code → ∀ b ∈ code, isPathByte b = true :=
    fun hcode b hb ↦ isPathByte_of_isalnum (hcode b hb)
  have hsymbols : ∀ b ∈ str "&symbols=", isPathByte b = true := List.all_eq_true.mp rfl
  exact isPathByte_append (isPathByte_append (isPathByte_append hresource (hcode hsource)) hsymbols)
    (hcode htarget)

theorem Query.isPathByte_path {c : CacheId} {query : Query c} (h : query.Plain) :
    ∀ b ∈ query.path, isPathByte b = true := by
  cases query with
  | listCurrencies => exact List.all_eq_true.mp rfl
  | latestRate source target => exact isPathByte_parameters (List.all_eq_true.mp rfl) h.1 h.2
  | history source target range =>
      have hv1 : ∀ b ∈ str "/v1/", isPathByte b = true := List.all_eq_true.mp rfl
      have hdots : ∀ b ∈ str "..", isPathByte b = true := List.all_eq_true.mp rfl
      have hbase : ∀ b ∈ str "?base=", isPathByte b = true := List.all_eq_true.mp rfl
      have hstart : ∀ b ∈ range.startDate, isPathByte b = true :=
        fun b hb ↦ isPathByte_of_mem_isoDate range.start_iso hb
      have hend : ∀ b ∈ range.endDate, isPathByte b = true :=
        fun b hb ↦ isPathByte_of_mem_isoDate range.end_iso hb
      have hdays := isPathByte_append (isPathByte_append (isPathByte_append hv1 hstart) hdots) hend
      exact isPathByte_parameters (isPathByte_append hdays hbase) h.1 h.2

end CurrencyConverter
