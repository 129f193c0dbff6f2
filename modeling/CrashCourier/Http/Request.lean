import CrashCourier.Http.Header
import CrashCourier.Http.Method
import CrashCourier.Http.Multipart
import CrashCourier.Http.Url
import CrashCourier.Table
import CrashCourier.Text.Base64

/-!
# Requests

An order says what is to be sent: the address as a text, the configured headers, named values and
files. `Order.request?` makes the request of it that goes to the collector. A method with a body
sends a form if there are files, else the named values as JSON. What announces the body is added to
the configured headers and replaces none of them.
-/

namespace CrashCourier.Http

/-- Files that are sent in one field of a form. -/
structure Attachments where
  /-- The name of the field. -/
  key : String
  files : List Bytes

/-- What is to be sent. -/
structure Order where
  method : Method
  url : String
  /-- Headers that the request carries whatever else it carries. -/
  headers : Table String
  parameters : Option Json.Members
  attachments : Option Attachments

/-- A request as it is sent. -/
structure Request where
  method : Method
  url : Url
  /-- The headers, in the order in which they are sent. -/
  headers : List Header
  /-- The body; empty if there is none. -/
  body : Bytes

/-- Why no request can be made. -/
inductive Refusal where
  /-- The address or a header cannot be sent. -/
  | malformed
  /-- The address is none that a request can be sent to. -/
  | unsendable (url : Url)

def Refusal.message : Refusal → String
  | malformed => "builder error"
  | unsendable url => "builder error for url (" ++ url.text ++ ")"

namespace Order

/-- What announces JSON. -/
def jsonType : String := "application/json"

/-- The header that a name and a password in an address stand for. -/
def credentialHeader (url : Url) : List Header :=
  match url.credentials? with
  | some (name, password) =>
    [("authorization", "Basic " ++ String.ofList (Text.base64 (name ++ 0x3A :: password.getD [])))]
  | none => []

/-- The headers that announce the body, and the body. -/
def content (boundary : String) (o : Order) : List Header × Bytes :=
  if !o.method.hasBody then ([], [])
  else
    match o.attachments with
    | some a =>
      ([("content-type", Multipart.contentType boundary)],
        Multipart.body boundary a.key a.files (o.parameters.getD []))
    | none =>
      ([("content-type", jsonType), ("accept", jsonType)],
        (o.parameters.map fun ps => (Json.Value.object ps).write).getD [])

/-- The headers with one that accepts anything, if none says what is accepted. -/
def withAccept (headers : List Header) : List Header :=
  if headers.any (·.1 == "accept") then headers else headers ++ [("accept", "*/*")]

/-- The request that an order makes. `boundary` stands between the parts of a form. -/
def request? (boundary : String) (o : Order) : Except Refusal Request := do
  -- of several faults the first here counts
  let some url := Url.ofText? o.url | throw .malformed
  if url.host.isNone then throw (.unsendable url)
  let some configured := o.headers.entries.mapM fun (name, value) => header? name value
    | throw .malformed
  let bare := url.withoutCredentials
  if !url.isSendable then throw (.unsendable bare)
  let (announcing, body) := o.content boundary
  return ⟨o.method, bare, withAccept (credentialHeader url ++ configured ++ announcing), body⟩

end Order

end CrashCourier.Http
