import CrashCourier.Json.Document
import CrashCourier.Text.Blank

/-!
# The message in the body of a failure

A collector says why it refuses a request in the body of its answer: in the member `reason` of an
object, or else in its first member. A body that holds no such text is the message itself.
-/

namespace CrashCourier.Http

/-- Stands for the message of a body without any text. -/
def noMessage : String := "Expecting JSON as result"

/-- The text of a value: a string, or an array that begins with one. -/
def leadingText? : Json.Value → Option String
  | .text s => some s
  | .list (.text s :: _) => some s
  | _ => none

def objectMessage? (members : Json.Members) : Option String :=
  match Json.Members.get? "reason" members with
  | some (.text reason) => some reason
  | _ => members.head?.bind fun (_, value) => leadingText? value

/-- The whole body as a text, unless it is blank. -/
def bodyMessage (body : Bytes) : String :=
  let text := Text.Utf8.decodeLossy body
  if text.all Text.isBlank then noMessage else String.ofList text

def message (body : Bytes) : String :=
  match Json.Value.ofBytes body with
  | .ok (.object members) => (objectMessage? members).getD (bodyMessage body)
  | _ => bodyMessage body

end CrashCourier.Http
