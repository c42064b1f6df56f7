import CurrencyConverter.Application.Services
import CurrencyConverter.Library.Collecting

/-!
# The frankfurter.dev client

What POCO does for the client is left open: each of its steps gives a value or
throws.  A parsed object has its members in the order in which it is iterated.
-/

namespace CurrencyConverter

open Collecting

/-! ## POCO -/

/-- A `Poco::Exception`, by its `displayText()`. -/
structure PocoException where
  displayText : Str
  deriving DecidableEq

/-- A `Dynamic::Var` of the parser; `null` is the empty one. -/
inductive Json
  | null
  | bool (value : Bool)
  | number (literal : Str)
  | string (value : Str)
  | array (items : List Json)
  | object (members : List (Str × Json))

abbrev Members := List (Str × Json)

structure Uri where
  scheme : Str
  host : Str
  port : ℕ
  pathAndQuery : Str

/-- `Poco::URI` and the sessions of `Poco::Net`.  A session is known by the URI it
was made for. -/
structure PocoNet where
  uri : Str → Except PocoException Uri
  httpsSession : Str → ℕ → Except PocoException Unit
  httpSession : Str → ℕ → Except PocoException Unit
  sendRequest : Uri → Str → Except PocoException Unit
  receiveResponse : Uri → Str → Except PocoException ℕ
  copyStream : Uri → Str → Except PocoException Str

/-- `Poco::JSON` and the conversions of `Dynamic::Var`. -/
structure PocoJson (D : Type) where
  parse : Str → Except PocoException Json
  badCast : Json → PocoException
  toString : Json → Except PocoException Str
  convertString : Json → Except PocoException Str
  convertDouble : Json → Except PocoException D

namespace PocoNet

def session (net : PocoNet) (uri : Uri) : Except PocoException Unit :=
  if uri.scheme = str "https" then net.httpsSession uri.host uri.port
  else net.httpSession uri.host uri.port

end PocoNet

namespace PocoJson

variable {D : Type}

/-- `extract<Object::Ptr>()`. -/
def extractObject (json : PocoJson D) : Json → Except PocoException Members
  | .object members => .ok members
  | value => .error (json.badCast value)

end PocoJson

namespace Members

/-- `get`, which gives the empty `Var` for a key that is not there. -/
def get (members : Members) (key : Str) : Json := (members.lookup key).getD .null

/-- `getObject`, with a null pointer for what is not an object. -/
def getObject (members : Members) (key : Str) : Option Members :=
  match members.get key with
  | .object object => some object
  | _ => none

end Members

/-! ## What the client throws -/

inductive Thrown
  | domain (ex : Exception)
  | poco (ex : PocoException)

namespace Thrown

variable {α : Type}

def ofPoco (step : Except PocoException α) : Except Thrown α := step.mapError .poco

/-- A `try` block whose last handler is for a `Poco::Exception`.  The handlers above it
rethrow the client's own exceptions. -/
def translating (handler : PocoException → Exception) (block : Except Thrown α) :
    Except Thrown α :=
  tryCatch block fun
    | .domain ex => throw (.domain ex)
    | .poco ex => throw (.domain (handler ex))

end Thrown

/-! ## The client -/

structure FrankfurterClient (D : Type) where
  baseUrl : Str
  net : PocoNet
  json : PocoJson D

def Uri.request (uri : Uri) : Str :=
  if uri.pathAndQuery.isEmpty then str "/" else uri.pathAndQuery

namespace FrankfurterClient

variable {D : Type}

/-- What `get` does before its `try` block. -/
def connect (client : FrankfurterClient D) (path : Str) : Except Thrown Uri := do
  let uri ← Thrown.ofPoco (client.net.uri (client.baseUrl ++ path))
  Thrown.ofPoco (client.net.session uri)
  return uri

/-- The `try` block of `get`. -/
def exchange (client : FrankfurterClient D) (uri : Uri) : Except Thrown Str := do
  Thrown.ofPoco (client.net.sendRequest uri uri.request)
  let status ← Thrown.ofPoco (client.net.receiveResponse uri uri.request)
  let body ← Thrown.ofPoco (client.net.copyStream uri uri.request)
  if status ≠ 200 then
    throw (.domain (.externalApiUnavailable
      (str "frankfurter.dev returned HTTP " ++ str (toString status))))
  else return body

def get (client : FrankfurterClient D) (path : Str) : Except Thrown Str := do
  let uri ← client.connect path
  Thrown.translating
    (fun ex ↦ .externalApiUnavailable (str "could not reach frankfurter.dev: " ++ ex.displayText))
    (client.exchange uri)

def parseObject (client : FrankfurterClient D) (body : Str) : Except Thrown Members := do
  let document ← Thrown.ofPoco (client.json.parse body)
  Thrown.ofPoco (client.json.extractObject document)

/-! ### The catalog -/

def currencyOf (client : FrankfurterClient D) (entry : Str × Json) :
    Except PocoException (Option Currency) := do
  let fullName ← client.json.toString entry.2
  return some ⟨entry.1, fullName⟩

def readCurrencies (client : FrankfurterClient D) (body : Str) : Except Thrown (List Currency) :=
  Thrown.translating
    (fun ex ↦ .externalApiUnexpectedResponse
      (str "unexpected /v1/currencies payload: " ++ ex.displayText)) do
      let object ← client.parseObject body
      Thrown.ofPoco (collect client.currencyOf object)

def listCurrencies (client : FrankfurterClient D) : Except Thrown (List Currency) := do
  let body ← client.get (str "/v1/currencies")
  client.readCurrencies body

/-! ### The latest rate -/

def latestPath (source target : Str) : Str :=
  str "/v1/latest?base=" ++ source ++ str "&symbols=" ++ target

def noRate (target : Str) : Exception :=
  .externalApiUnexpectedResponse (str "no rate for " ++ target ++ str " in /v1/latest response")

def readLatestRate (client : FrankfurterClient D) (source target body : Str) :
    Except Thrown (ExchangeRate D) :=
  Thrown.translating
    (fun ex ↦ .externalApiUnexpectedResponse
      (str "unexpected /v1/latest payload: " ++ ex.displayText)) do
      let object ← client.parseObject body
      let date ← Thrown.ofPoco (client.json.convertString (object.get (str "date")))
      match (object.getObject (str "rates")).bind (·.lookup target) with
      | none => throw (.domain (noRate target))
      | some value =>
          let rate ← Thrown.ofPoco (client.json.convertDouble value)
          return ⟨source, target, rate, date⟩

def latestRate (client : FrankfurterClient D) (source target : Str) :
    Except Thrown (ExchangeRate D) := do
  let body ← client.get (latestPath source target)
  client.readLatestRate source target body

/-! ### The history -/

def historyPath (source target : Str) (range : DateRange) : Str :=
  str "/v1/" ++ range.startDate ++ str ".." ++ range.endDate ++ str "?base=" ++ source ++
    str "&symbols=" ++ target

def missingRates : Exception :=
  .externalApiUnexpectedResponse
    (str "missing 'rates' in /v1/\x7bstart\x7d..\x7bend\x7d response")

/-- One turn of the loop over `ratesByDate`; `none` where it continues. -/
def pointOf (client : FrankfurterClient D) (source target : Str) (range : DateRange)
    (entry : Str × Json) : Except PocoException (Option (ExchangeRate D)) := do
  if entry.1 < range.startDate ∨ range.endDate < entry.1 then return none
  let dayRates ← client.json.extractObject entry.2
  match dayRates.lookup target with
  | none => return none
  | some value =>
      let rate ← client.json.convertDouble value
      return some ⟨source, target, rate, entry.1⟩

def readHistory (client : FrankfurterClient D) (source target : Str) (range : DateRange)
    (body : Str) : Except Thrown (List (ExchangeRate D)) :=
  Thrown.translating
    (fun ex ↦ .externalApiUnexpectedResponse
      (str "unexpected /v1/\x7bstart\x7d..\x7bend\x7d payload: " ++ ex.displayText)) do
      let object ← client.parseObject body
      match object.getObject (str "rates") with
      | none => throw (.domain missingRates)
      | some ratesByDate =>
          let points ← Thrown.ofPoco (collect (client.pointOf source target range) ratesByDate)
          return sortBy ExchangeRate.date points

def history (client : FrankfurterClient D) (source target : Str) (range : DateRange) :
    Except Thrown (List (ExchangeRate D)) := do
  let body ← client.get (historyPath source target range)
  client.readHistory source target range body

end FrankfurterClient

/-! ## A site that answers -/

def siteUrl : Str := str "https://api.frankfurter.dev"

/-- `Poco::URI` on the addresses of the site and on those with a port that is no number. -/
def siteUri (uri : Str) : Except PocoException Uri :=
  if (siteUrl ++ str ":abc").isPrefixOf uri then
    .error ⟨str "Bad URI syntax: bad or invalid port number: abc"⟩
  else .ok ⟨str "https", str "api.frankfurter.dev", 443, uri.drop siteUrl.length⟩

def site (body : Str) : PocoNet where
  uri := siteUri
  httpsSession _ _ := .ok ()
  httpSession _ _ := .ok ()
  sendRequest _ _ := .ok ()
  receiveResponse _ _ := .ok 200
  copyStream _ _ := .ok body

/-- A parser of one document, with numbers that have no sign, point or exponent. -/
def pocoJson (document : Json) : PocoJson ℚ where
  parse _ := .ok document
  badCast _ := ⟨str "Bad cast exception"⟩
  toString
    | .string value => .ok value
    | _ => .error ⟨str "Bad cast exception"⟩
  convertString
    | .string value => .ok value
    | _ => .error ⟨str "Bad cast exception"⟩
  convertDouble
    | .number literal => .ok (literal.foldl (fun n c ↦ 10 * n + (c.toNat - 48)) 0 : ℕ)
    | _ => .error ⟨str "Bad cast exception"⟩

end CurrencyConverter
