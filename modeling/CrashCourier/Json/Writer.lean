import CrashCourier.Decimal.Layout
import CrashCourier.Json.Value
import CrashCourier.Text.Hex

/-!
# Writing JSON

Values are written without blanks, members in their order. A string escapes quotes, backslashes and
the controls below U+0020 and holds everything else as it is.
-/

namespace CrashCourier.Json

/-- How a string writes one character. -/
def escapeChar (c : Char) : Bytes :=
  match c with
  | '"' => octets "\\\""
  | '\\' => octets "\\\\"
  | '\x08' => octets "\\b"
  | '\x0C' => octets "\\f"
  | '\n' => octets "\\n"
  | '\r' => octets "\\r"
  | '\t' => octets "\\t"
  | c =>
    if c.toNat < 0x20 then Text.Utf8.encode ('\\' :: 'u' :: Text.hex 4 c.toNat)
    else Text.Utf8.encodeChar c

/-- A string in quotes. -/
def writeString (s : String) : Bytes :=
  0x22 :: s.toList.flatMap escapeChar ++ [0x22]

/-- A number in the notation of its kind. -/
def Number.write : Number → Bytes
  | .natural n => octets (toString n.toNat)
  | .negative n => octets ("-" ++ toString n.magnitude)
  | .real x => octets (Decimal.Layout.json.text x)

def writeTruth (b : Bool) : Bytes :=
  octets (if b then "true" else "false")

/-- Texts with commas between them, in brackets. -/
def writeList (items : List Bytes) : Bytes :=
  0x5B :: List.intercalate [0x2C] items ++ [0x5D]

/-- Texts with commas between them, in braces. -/
def writeObject (members : List Bytes) : Bytes :=
  0x7B :: List.intercalate [0x2C] members ++ [0x7D]

/-- A member: its key, a colon and its value. -/
def writeMember (key : String) (value : Bytes) : Bytes :=
  writeString key ++ 0x3A :: value

mutual

/-- The text of a value. -/
def Value.write : Value → Bytes
  | .null => octets "null"
  | .truth b => writeTruth b
  | .number n => n.write
  | .text s => writeString s
  | .list items => writeList (writeItems items)
  | .object members => writeObject (writeMembers members)

/-- The texts of an array's items. -/
def writeItems : List Value → List Bytes
  | [] => []
  | v :: rest => v.write :: writeItems rest

/-- The texts of an object's members. -/
def writeMembers : List (String × Value) → List Bytes
  | [] => []
  | (k, v) :: rest => writeMember k v.write :: writeMembers rest

end

end CrashCourier.Json
