import CurrencyConverter.Grpc.Provenance
import CurrencyConverter.Library.TwoRuns

/-!
# Details that stay on the server

The details of an unexpected answer of the provider, and of any exception that is not of
the domain, are for the log of the server.  Two runs in which the provider fails at the
same points, but with other details, give the same responses and leave the same caches.
-/

namespace CurrencyConverter

open AtomicProgram Prog

variable {D : Type}

/-- Failures that a client cannot tell apart: one is the other, or both are internal. -/
def Indistinct (e e' : ProviderException) : Prop :=
  CurrencyServiceImpl.toStatus e.toException = CurrencyServiceImpl.toStatus e'.toException

/-- Anything but unavailability is internal, whatever its kind and text. -/
theorem indistinct_iff {e e' : ProviderException} :
    Indistinct e e' ↔
      e = e' ∨ (∀ what, e ≠ .unavailable what) ∧ ∀ what, e' ≠ .unavailable what := by
  cases e with
  | unavailable what =>
      cases e' with
      | _ => simp [Indistinct, ProviderException.toException, CurrencyServiceImpl.toStatus]
  | unexpectedResponse what =>
      cases e' with
      | _ => simp [Indistinct, ProviderException.toException, CurrencyServiceImpl.toStatus]
  | other what =>
      cases e' with
      | _ => simp [Indistinct, ProviderException.toException, CurrencyServiceImpl.toStatus]

/-- Answers of the provider that differ in such details only. -/
abbrev SameAnswer {α : Type} : Except ProviderException α → Except ProviderException α → Prop :=
  SameOutcome Indistinct

def SameReply : (a : Action D) → Reply a → Reply a → Prop
  | .call _, r, r' => SameAnswer r r'
  | .cacheGet _ _, r, r' => r = r'
  | .cachePut _ _ _, _, _ => True
  | .systemClock, r, r' => r = r'

structure SameTick (w w' : Tick D) : Prop where
  now : w.now = w'.now
  today : w.today = w'.today
  upstream : ∀ c (q : Query c), SameAnswer (w.upstream c q) (w'.upstream c q)

theorem sameAnswer_of_machine {w w' : Tick D} (h : SameTick w w') (caches : Caches D)
    (a : Action D) :
    SameReply a (Server.answer w caches a).1 (Server.answer w' caches a).1 ∧
      (Server.answer w caches a).2 = (Server.answer w' caches a).2 := by
  cases a with
  | cacheGet c key => simp [Server.answer, SameReply, h.now]
  | cachePut c key value => simp [Server.answer, SameReply, h.now]
  | call q => exact ⟨h.upstream _ q, rfl⟩
  | systemClock => exact ⟨h.today, rfl⟩

/-! ## The services -/

/-- Exceptions that reach the client as one status. -/
def SameStatus (ex ex' : Exception) : Prop :=
  CurrencyServiceImpl.toStatus ex = CurrencyServiceImpl.toStatus ex'

abbrev Alike {α : Type} (p p' : Service D α) : Prop :=
  Agree (SameReply (D := D)) (SameOutcome SameStatus) p.run p'.run

theorem alike_throw {α : Type} (ex : Exception) : Alike (throw ex : Service D α) (throw ex) :=
  .ret (.error (Eq.refl _))

theorem alike_pure {α : Type} (x : α) : Alike (pure x : Service D α) (pure x) := .ret (.ok x)

theorem alike_call {c : CacheId} (q : Query c) :
    Alike (Service.call q : Service D _) (Service.call q) := by
  refine .act (Action.call q) fun r r' hr ↦ ?_
  cases hr with
  | ok v => exact .ret (.ok v)
  | error he => exact .ret (.error he)

theorem alike_cacheGet (c : CacheId) (key : Str) :
    Alike (Service.cacheGet c key : Service D _) (Service.cacheGet c key) := by
  refine .act (Action.cacheGet c key) fun r r' hr ↦ ?_
  cases hr
  exact .ret (.ok r)

theorem alike_getOrFetch {c : CacheId} (q : Query c) {fetch : Service D (Stored D c)}
    (hfetch : Alike fetch fetch) :
    Alike (Service.getOrFetch q fetch) (Service.getOrFetch q fetch) := by
  rw [Service.getOrFetch]
  apply (alike_cacheGet c q.cacheKey).run_bind
  intro cached
  cases cached with
  | some v => exact alike_pure v
  | none =>
      apply hfetch.run_bind
      intro fetched
      exact .act _ fun _ _ _ ↦ .ret (.ok fetched)

theorem alike_listCurrencies :
    Alike (CurrencyCatalogService.listCurrencies : Service D _)
      CurrencyCatalogService.listCurrencies := by
  apply alike_getOrFetch
  apply (alike_call .listCurrencies).run_bind
  intro list
  split
  · exact alike_throw _
  · exact alike_pure list

theorem alike_checkKnown (role code : Str) :
    Alike (checkKnown role code : Service D _) (checkKnown role code) := by
  have hknown : Alike (CurrencyCatalogService.isKnownCurrency code : Service D _)
      (CurrencyCatalogService.isKnownCurrency code) := by
    apply alike_listCurrencies.run_bind
    exact fun _ ↦ alike_pure _
  apply hknown.run_bind
  intro known
  split
  · exact alike_throw _
  · exact alike_pure ()

variable [Double D]

theorem alike_getConstraints :
    Alike (ConstraintsService.getConstraints : Service D _) ConstraintsService.getConstraints := by
  refine .act Action.systemClock fun r r' hr ↦ ?_
  cases hr
  exact .ret (.ok _)

theorem alike_convert (source target : Str) (amount : D) :
    Alike (ConversionService.convert source target amount)
      (ConversionService.convert source target amount) := by
  rw [ConversionService.convert]
  apply (alike_checkKnown _ _).run_bind
  intro _
  apply (alike_checkKnown _ _).run_bind
  intro _
  split
  · exact alike_throw _
  · apply alike_getConstraints.run_bind
    intro constraints
    split
    · exact alike_throw _
    · apply (alike_getOrFetch _ (alike_call _)).run_bind
      exact fun _ ↦ alike_pure _

theorem alike_getHistory (source target : Str) (range : DateRange) :
    Alike (HistoryService.getHistory source target range : Service D _)
      (HistoryService.getHistory source target range) := by
  rw [HistoryService.getHistory]
  apply (alike_checkKnown _ _).run_bind
  intro _
  apply (alike_checkKnown _ _).run_bind
  intro _
  apply alike_getConstraints.run_bind
  intro constraints
  split
  · exact alike_throw _
  · exact alike_getOrFetch (.history (toUpper source) (toUpper target) range) (alike_call _)

omit [Double D] in
theorem agree_handle {work : Service D (Response D)} (hwork : Alike work work) :
    Agree SameReply Eq (CurrencyServiceImpl.handle work) (CurrencyServiceImpl.handle work) := by
  rw [CurrencyServiceImpl.handle]
  apply hwork.bind
  intro out out' hout
  cases hout with
  | ok response => exact .ret rfl
  | error hstatus => exact .ret (congrArg Except.error hstatus)

theorem agree_serve (req : Request D) :
    Agree SameReply Eq (CurrencyServiceImpl.serve req) (CurrencyServiceImpl.serve req) := by
  cases req with
  | listCurrencies =>
      apply agree_handle
      apply alike_listCurrencies.run_bind
      exact fun _ ↦ alike_pure _
  | convert r =>
      apply agree_handle
      apply (alike_convert _ _ _).run_bind
      exact fun _ ↦ alike_pure _
  | getHistory r =>
      apply agree_handle
      cases DateRange.construct r.startDate r.endDate with
      | error ex => exact alike_throw ex
      | ok range =>
          apply (alike_getHistory _ _ range).run_bind
          exact fun _ ↦ alike_pure _
  | getConstraints =>
      apply agree_handle
      apply alike_getConstraints.run_bind
      exact fun _ ↦ alike_pure _

/-! ## Runs -/

/-- What the clients of a run see, the latest response first. -/
def responses (log : Log D) : List (ℕ × Outcome D) :=
  log.filterMap fun
    | .responded i out => some (i, out)
    | _ => none

omit [Double D] in
theorem responses_eq_of_same {log log' : Log D}
    (h : List.Forall₂ (SameEvent SameReply SameTick) log log') :
    responses log = responses log' := by
  unfold responses
  induction h with
  | nil => rfl
  | cons he _ ih =>
      cases he with
      | responded i out => rw [List.filterMap_cons, List.filterMap_cons, ih]
      | _ => exact ih

/-- Runs that differ only in the details of internal failures give the same responses in the
same order, and leave the same caches. -/
theorem details_stay_on_the_server (limits : Limits) {schedule schedule' : Schedule D}
    (h : List.Forall₂ (SameChoice SameTick) schedule schedule') :
    responses (limits.run schedule).log = responses (limits.run schedule').log ∧
      (limits.run schedule).shared = (limits.run schedule').shared := by
  have hsame : SamePool SameReply SameTick (limits.run schedule) (limits.run schedule') :=
    samePool_run agree_serve (fun _ _ s a hw ↦ sameAnswer_of_machine hw s a) (limits.empty D) h
  exact ⟨responses_eq_of_same hsame.log, hsame.shared⟩

/-- A conversion while every call of the provider throws `e`. -/
def failing (e : ProviderException) : Schedule ℚ :=
  let t := tickAt 0 fun _ _ ↦ .error e
  [.act 0 t, .act 0 t, .act 0 t, .start usdToEur]

theorem details_stay_on_the_server_when_failing :
    responses (Limits.builtIn.run (failing (.unexpectedResponse (str "no field 'rate'")))).log =
      responses (Limits.builtIn.run (failing (.other (str "std::bad_alloc")))).log := by
  have htick : SameTick (tickAt 0 fun _ _ ↦ .error (.unexpectedResponse (str "no field 'rate'")))
      (tickAt 0 fun _ _ ↦ .error (.other (str "std::bad_alloc"))) :=
    ⟨rfl, rfl, fun _ _ ↦ .error (Eq.refl _)⟩
  have hact := SameChoice.act (Q := Request ℚ) (B := Server.Sweep) 0 htick
  exact (details_stay_on_the_server .builtIn
    (.cons hact (.cons hact (.cons hact (.cons (.start usdToEur) .nil))))).1

end CurrencyConverter
