import CurrencyConverter.External.FrankfurterClient
import CurrencyConverter.Library.Raising

/-!
# How the client fails

The client promises its callers domain errors alone.  It keeps the promise from the
request on; the URI and the session are made outside of any handler.
-/

namespace CurrencyConverter

open Collecting Raising

variable {D : Type}

def Exception.IsUnavailable (ex : Exception) : Prop := ∃ what, ex = .externalApiUnavailable what

def Exception.IsUnexpectedResponse (ex : Exception) : Prop :=
  ∃ what, ex = .externalApiUnexpectedResponse what

namespace Thrown

variable {α : Type} {P : Exception → Prop}

/-- In a `try` block: the client's own exceptions satisfy `P`. -/
def OwnOnly (P : Exception → Prop) : Thrown → Prop
  | .domain ex => P ex
  | .poco _ => True

/-- Out of it: there are no others. -/
def DomainOnly (P : Exception → Prop) : Thrown → Prop
  | .domain ex => P ex
  | .poco _ => False

theorem raises_ofPoco (step : Except PocoException α) : Raises (OwnOnly P) (ofPoco step) := by
  cases step with
  | ok a => exact raises_pure a
  | error ex => exact raises_throw (e := Thrown.poco ex) trivial

theorem raises_translating {handler : PocoException → Exception} {block : Except Thrown α}
    (hhandler : ∀ ex, P (handler ex)) (hblock : Raises (OwnOnly P) block) :
    Raises (DomainOnly P) (translating handler block) := by
  refine raises_tryCatch hblock ?_
  intro thrown hthrown
  cases thrown with
  | domain ex => exact raises_throw (e := Thrown.domain ex) hthrown
  | poco ex => exact raises_throw (e := Thrown.domain (handler ex)) (hhandler ex)

theorem ofPoco_eq_ok_iff {step : Except PocoException α} {a : α} :
    ofPoco step = .ok a ↔ step = .ok a := by
  cases step with
  | ok b => exact ⟨fun h ↦ by cases h; rfl, fun h ↦ by cases h; rfl⟩
  | error ex => exact ⟨nofun, nofun⟩

theorem translating_eq_ok_iff {handler : PocoException → Exception} {block : Except Thrown α}
    {a : α} : translating handler block = .ok a ↔ block = .ok a := by
  cases block with
  | ok b => rfl
  | error thrown =>
      cases thrown with
      | domain ex => exact ⟨nofun, nofun⟩
      | poco ex => exact ⟨nofun, nofun⟩

end Thrown

/-! ## The operations by their queries -/

def Query.path {c : CacheId} : Query c → Str
  | .listCurrencies => str "/v1/currencies"
  | .latestRate source target => FrankfurterClient.latestPath source target
  | .history source target range => FrankfurterClient.historyPath source target range

namespace FrankfurterClient

def answer (client : FrankfurterClient D) {c : CacheId} :
    Query c → Except Thrown (Stored D c)
  | .listCurrencies => client.listCurrencies
  | .latestRate source target => client.latestRate source target
  | .history source target range => client.history source target range

/-- What the call makes of a body. -/
def read (client : FrankfurterClient D) {c : CacheId} :
    Query c → Str → Except Thrown (Stored D c)
  | .listCurrencies => client.readCurrencies
  | .latestRate source target => client.readLatestRate source target
  | .history source target range => client.readHistory source target range

theorem answer_eq (client : FrankfurterClient D) {c : CacheId} (query : Query c) :
    client.answer query = client.get query.path >>= client.read query := by
  cases query with
  | listCurrencies => rfl
  | latestRate source target => rfl
  | history source target range => rfl

/-! ## The steps of a call -/

/-- The URI of `path` can be parsed, and a session made for it. -/
def Connects (client : FrankfurterClient D) (path : Str) : Prop :=
  ∃ uri, client.net.uri (client.baseUrl ++ path) = .ok uri ∧ client.net.session uri = .ok ()

/-- All steps up to reading `body` succeed, with status 200. -/
def Delivers (client : FrankfurterClient D) (path body : Str) : Prop :=
  ∃ uri, client.net.uri (client.baseUrl ++ path) = .ok uri ∧ client.net.session uri = .ok () ∧
    client.net.sendRequest uri uri.request = .ok () ∧
    client.net.receiveResponse uri uri.request = .ok 200 ∧
    client.net.copyStream uri uri.request = .ok body

/-- Every failure to get a `200` body is an `ExternalApiUnavailableException`, every
failure to read it an `ExternalApiUnexpectedResponseException`. -/
structure FailsByDomainErrors (client : FrankfurterClient D) {c : CacheId} (query : Query c) :
    Prop where
  unavailable : (¬ ∃ body, client.Delivers query.path body) →
    ∃ what, client.answer query = .error (.domain (.externalApiUnavailable what))
  unexpected : (∃ body, client.Delivers query.path body) →
    (∃ value, client.answer query = .ok value) ∨
      ∃ what, client.answer query = .error (.domain (.externalApiUnexpectedResponse what))

variable {client : FrankfurterClient D} {path : Str}

/-! ## Getting a body -/

theorem connect_eq_ok_iff {uri : Uri} : client.connect path = .ok uri ↔
    client.net.uri (client.baseUrl ++ path) = .ok uri ∧ client.net.session uri = .ok () := by
  simp only [connect, bind_eq_ok_iff, Thrown.ofPoco_eq_ok_iff]
  constructor
  · rintro ⟨uri', huri, _, hsession, ⟨rfl⟩⟩
    exact ⟨huri, hsession⟩
  · rintro ⟨huri, hsession⟩
    exact ⟨uri, huri, (), hsession, rfl⟩

/-- Outside of its `try` block, `get` throws nothing but what POCO throws. -/
theorem raises_connect (client : FrankfurterClient D) (path : Str) :
    Raises (Thrown.OwnOnly fun _ ↦ False) (client.connect path) := by
  apply raises_bind (Thrown.raises_ofPoco _)
  intro uri
  apply raises_bind (Thrown.raises_ofPoco _)
  exact fun _ ↦ raises_pure uri

theorem raises_exchange (client : FrankfurterClient D) (uri : Uri) :
    Raises (Thrown.OwnOnly Exception.IsUnavailable) (client.exchange uri) := by
  apply raises_bind (Thrown.raises_ofPoco _)
  intro _
  apply raises_bind (Thrown.raises_ofPoco _)
  intro status
  apply raises_bind (Thrown.raises_ofPoco _)
  intro body
  split
  · exact raises_throw ⟨_, rfl⟩
  · exact raises_pure body

theorem get_of_not_connects (h : ¬ client.Connects path) :
    ∃ ex, client.get path = .error (.poco ex) := by
  rcases raises_cases (raises_connect client path) with ⟨uri, huri⟩ | ⟨thrown, hthrown, hpoco⟩
  · exact absurd ⟨uri, connect_eq_ok_iff.mp huri⟩ h
  · cases thrown with
    | domain ex => exact hpoco.elim
    | poco ex => exact ⟨ex, bind_eq_of_error hthrown _⟩

theorem raises_get (h : client.Connects path) :
    Raises (Thrown.DomainOnly Exception.IsUnavailable) (client.get path) := by
  obtain ⟨uri, huri⟩ := h
  rw [get, connect_eq_ok_iff.mpr huri]
  exact Thrown.raises_translating (fun ex ↦ ⟨_, rfl⟩) (raises_exchange client uri)

theorem get_eq_ok_iff {body : Str} : client.get path = .ok body ↔ client.Delivers path body := by
  have hexchange : ∀ uri, client.exchange uri = .ok body ↔
      client.net.sendRequest uri uri.request = .ok () ∧
        client.net.receiveResponse uri uri.request = .ok 200 ∧
        client.net.copyStream uri uri.request = .ok body := by
    intro uri
    simp only [exchange, bind_eq_ok_iff, Thrown.ofPoco_eq_ok_iff]
    constructor
    · rintro ⟨_, hsend, status, hstatus, body', hbody, hread⟩
      split at hread
      · cases hread
      · next hok =>
          cases hread
          cases not_not.mp hok
          exact ⟨hsend, hstatus, hbody⟩
    · rintro ⟨hsend, hstatus, hbody⟩
      exact ⟨(), hsend, 200, hstatus, body, hbody, rfl⟩
  simp only [get, bind_eq_ok_iff, connect_eq_ok_iff, Thrown.translating_eq_ok_iff, hexchange,
    Delivers, and_assoc]

/-! ## Reading it -/

theorem raises_parseObject {P : Exception → Prop} (client : FrankfurterClient D) (body : Str) :
    Raises (Thrown.OwnOnly P) (client.parseObject body) :=
  raises_bind (Thrown.raises_ofPoco _) fun _ ↦ Thrown.raises_ofPoco _

theorem raises_read (client : FrankfurterClient D) {c : CacheId} (query : Query c) (body : Str) :
    Raises (Thrown.DomainOnly Exception.IsUnexpectedResponse) (client.read query body) := by
  cases query with
  | listCurrencies =>
      apply Thrown.raises_translating (fun ex ↦ ⟨_, rfl⟩)
      exact raises_bind (raises_parseObject client body) fun _ ↦ Thrown.raises_ofPoco _
  | latestRate source target =>
      apply Thrown.raises_translating (fun ex ↦ ⟨_, rfl⟩)
      apply raises_bind (raises_parseObject client body)
      intro object
      apply raises_bind (Thrown.raises_ofPoco _)
      intro date
      split
      · exact raises_throw ⟨_, rfl⟩
      · exact raises_bind (Thrown.raises_ofPoco _) fun rate ↦ raises_pure _
  | history source target range =>
      apply Thrown.raises_translating (fun ex ↦ ⟨_, rfl⟩)
      apply raises_bind (raises_parseObject client body)
      intro object
      split
      · exact raises_throw ⟨_, rfl⟩
      · exact raises_bind (Thrown.raises_ofPoco _) fun points ↦ raises_pure _

/-! ## The calls -/

variable {c : CacheId} {query : Query c}

theorem answer_of_not_connects (h : ¬ client.Connects query.path) :
    ∃ ex, client.answer query = .error (.poco ex) := by
  obtain ⟨ex, hex⟩ := get_of_not_connects h
  exact ⟨ex, (answer_eq client query).trans (bind_eq_of_error hex _)⟩

theorem answer_of_delivers {body : Str} (h : client.Delivers query.path body) :
    client.answer query = client.read query body := by
  rw [answer_eq, get_eq_ok_iff.mpr h]
  rfl

theorem connects_of_delivers {body : Str} (h : client.Delivers path body) :
    client.Connects path := by
  obtain ⟨uri, huri, hsession, -⟩ := h
  exact ⟨uri, huri, hsession⟩

theorem answer_of_not_delivers (hconnects : client.Connects query.path)
    (h : ¬ ∃ body, client.Delivers query.path body) :
    ∃ what, client.answer query = .error (.domain (.externalApiUnavailable what)) := by
  rcases raises_cases (raises_get hconnects) with ⟨body, hbody⟩ | ⟨thrown, hthrown, hdomain⟩
  · exact absurd ⟨body, get_eq_ok_iff.mp hbody⟩ h
  · cases thrown with
    | domain ex =>
        obtain ⟨what, rfl⟩ := hdomain
        exact ⟨what, (answer_eq client query).trans (bind_eq_of_error hthrown _)⟩
    | poco ex => exact hdomain.elim

/-- The client keeps its promise where the URI and the session can be made, and
nowhere else. -/
theorem failsByDomainErrors_iff_connects (client : FrankfurterClient D) {c : CacheId}
    (query : Query c) : client.FailsByDomainErrors query ↔ client.Connects query.path := by
  constructor
  · intro hfails
    by_contra hconnects
    obtain ⟨ex, hex⟩ := answer_of_not_connects hconnects
    have hnone : ¬ ∃ body, client.Delivers query.path body :=
      fun ⟨_, hbody⟩ ↦ hconnects (connects_of_delivers hbody)
    obtain ⟨what, hwhat⟩ := hfails.unavailable hnone
    cases hex.symm.trans hwhat
  · intro hconnects
    constructor
    · exact answer_of_not_delivers hconnects
    · rintro ⟨body, hbody⟩
      rw [answer_of_delivers hbody]
      rcases raises_cases (raises_read client query body) with hok | ⟨thrown, hthrown, hdomain⟩
      · exact .inl hok
      · cases thrown with
        | domain ex =>
            obtain ⟨what, rfl⟩ := hdomain
            exact .inr ⟨what, hthrown⟩
        | poco ex => exact hdomain.elim

/-- The base URL has a port that is no number. -/
def misconfigured : FrankfurterClient ℚ := ⟨siteUrl ++ str ":abc", site [], pocoJson .null⟩

/-- What `Poco::URI` throws reaches the caller. -/
theorem port_error_reaches_caller :
    misconfigured.listCurrencies =
      .error (.poco ⟨str "Bad URI syntax: bad or invalid port number: abc"⟩) ∧
    ¬ misconfigured.FailsByDomainErrors .listCurrencies := by
  have hthrown : misconfigured.listCurrencies =
      .error (.poco ⟨str "Bad URI syntax: bad or invalid port number: abc"⟩) := by rfl
  refine ⟨hthrown, ?_⟩
  intro hfails
  have hnone : ¬ ∃ body, misconfigured.Delivers (str "/v1/currencies") body := by
    rintro ⟨body, uri, huri, -⟩
    cases huri
  obtain ⟨what, hwhat⟩ := hfails.unavailable hnone
  cases hthrown.symm.trans hwhat

end FrankfurterClient

end CurrencyConverter
