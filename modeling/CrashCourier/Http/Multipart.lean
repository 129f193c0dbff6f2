import CrashCourier.Json.Writer

/-!
# Form bodies of several parts

Files and named values in one body. In front of each part stands a line of two dashes and the
boundary, behind the last one the same with two more dashes. A part is a few headers, an empty line
and the content.
-/

namespace CrashCourier.Http.Multipart

/-- The end of a line. -/
def crlf : Bytes := [0x0D, 0x0A]

/-- The line in front of a part. -/
def delimiter (boundary : String) : Bytes :=
  octets ("--" ++ boundary) ++ crlf

/-- The line behind the last part. -/
def closing (boundary : String) : Bytes :=
  octets ("--" ++ boundary ++ "--") ++ crlf

/-- One part: its headers and its content. -/
structure Part where
  headers : List String
  content : Bytes

/-- The octets of a part, the line in front of it included. -/
def Part.write (boundary : String) (p : Part) : Bytes :=
  delimiter boundary ++ p.headers.flatMap (fun h => octets h ++ crlf) ++ crlf ++ p.content ++ crlf

/-- The part of the `n`th file of a field. -/
def filePart (key : String) (n : Nat) (content : Bytes) : Part :=
  ⟨["Content-Disposition: form-data; name=\"" ++ key ++ "\"; filename=\"report" ++ toString n ++
      ".json\"", "Content-Type: json"], content⟩

/-- A value in a form: a string is written as it is, anything else as JSON. -/
def fieldValue : Json.Value → Bytes
  | .text s => octets s
  | v => v.write

/-- The part of a named value. -/
def fieldPart (name : String) (value : Json.Value) : Part :=
  ⟨["Content-Disposition: form-data; name=\"" ++ name ++ "\""], fieldValue value⟩

/-- The parts of files from the `n`th on. -/
def fileParts (key : String) : (n : Nat) → List Bytes → List Part
  | _, [] => []
  | n, file :: rest => filePart key n file :: fileParts key (n + 1) rest

/-- The parts of a form: the files, which are counted from one, and then the named values. -/
def parts (key : String) (files : List Bytes) (parameters : Json.Members) : List Part :=
  fileParts key 1 files ++ parameters.map fun (name, value) => fieldPart name value

def body (boundary key : String) (files : List Bytes) (parameters : Json.Members) : Bytes :=
  (parts key files parameters).flatMap (·.write boundary) ++ closing boundary

/-- What announces a form with this boundary. -/
def contentType (boundary : String) : String :=
  "multipart/form-data; boundary=" ++ boundary

end CrashCourier.Http.Multipart
