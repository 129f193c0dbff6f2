import CrashCourier.Http.Message
import CrashCourier.Http.Request
import CrashCourier.Log

/-!
# Exchanges

An exchange sends one request and classifies the answer by its status: from 200 to 299 the request
is delivered, from 400 to 599 it has failed, any other status says neither.

The answer is the one that the client comes back with. Where an answer names another address, by a
`Location`, a client may follow it on its own with a second request, which can have another method and
no body. That is not modelled: an exchange here is one request and the answer to it.
-/

namespace CrashCourier.Http

/-- What the client comes back with for a request. -/
inductive Reply where
  /-- No answer: the connection is closed, or time runs out. -/
  | silence
  /-- An answer; its body may break off. -/
  | answer (status : Nat) (body : Bytes) (complete : Bool)

/-- A failed exchange. -/
structure NetworkError where
  /-- The status of the answer; 0 if there is none. -/
  code : Nat
  description : String
  deriving DecidableEq

/-- An exchange that did not fail. -/
inductive Outcome where
  /-- The request was accepted. -/
  | delivered (body : Bytes)
  /-- The status says neither success nor failure. -/
  | ignored (status : Nat)
  deriving DecidableEq

/-- The body of an exchange, if there is one. -/
def Outcome.body? : Outcome → Option Bytes
  | delivered body => some body
  | ignored _ => none

/-- What one exchange leads to. -/
structure Exchange where
  /-- The request, if one was sent. -/
  sent : Option Request
  result : Except NetworkError Outcome
  log : Log

/-- Whether a status announces another answer, which is waited for. -/
def isInformational (status : Nat) : Bool :=
  100 ≤ status && status < 200 && status ≠ 101

/-- Whether an answer of this status never has a body. -/
def isBodiless (status : Nat) : Bool :=
  status == 204 || status == 304 || status == 101

/-- The answer as far as it is understood. -/
def Reply.understood : Reply → Reply
  | silence => silence
  | answer status body complete =>
    if isInformational status || status < 100 || 999 < status then silence
    else if isBodiless status then answer status [] true
    else answer status body complete

namespace Order

/-- The exchange of a request that got no answer. -/
def unanswered (o : Order) (sent : Option Request) (error : String) : Exchange :=
  ⟨sent, throw ⟨0, error⟩,
    [⟨.debug, "Request produced no response",
      [("method", o.method.name), ("url", o.url), ("error", error)]⟩]⟩

/-- The exchange of a request that got an answer. -/
def answered (o : Order) (request : Request) (status : Nat) (body : Bytes) (complete : Bool) :
    Exchange :=
  let place := [("method", o.method.name), ("url", o.url), ("status", toString status)]
  if 200 ≤ status ∧ status ≤ 299 then
    if complete then
      ⟨request, pure (.delivered body),
        [⟨.debug, "Request succeeded", place ++ [("bytes", toString body.length)]⟩]⟩
    else ⟨request, throw ⟨0, "error decoding response body"⟩, []⟩
  else if 400 ≤ status ∧ status ≤ 599 then
    let description := message (if complete then body else [])
    ⟨request, throw ⟨status, description⟩,
      [⟨.debug, "Request failed", place ++ [("description", description)]⟩]⟩
  else
    ⟨request, pure (.ignored status),
      [⟨.warn, "Ignoring response with unclassified status", place⟩]⟩

/-- Carries out an order with a collector that answers as `collector` says. -/
def exchange (boundary : String) (o : Order) (collector : Request → Reply) : Exchange :=
  match o.request? boundary with
  | .error refusal => o.unanswered none refusal.message
  | .ok request =>
    match (collector request).understood with
    | .silence =>
      o.unanswered request ("error sending request for url (" ++ request.url.text ++ ")")
    | .answer status body complete => o.answered request status body complete

end Order

end CrashCourier.Http
