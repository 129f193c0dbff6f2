import CrashCourier.Json.Fault
import CrashCourier.Text.Hex

/-!
# Reading from octets

A reader takes a value off the front of the octets ahead and leaves the rest, or stops at a fault.
The readers here know the blanks, the literal words and the punctuation of arrays and objects; what
stands between the punctuation is a parameter, so that free values and records of a fixed shape
share one reading of it.
-/

namespace CrashCourier.Json

/-- Takes a value off the octets ahead. -/
abbrev Reader := StateT Bytes (Except Fault)

namespace Reader

/-- The blanks between tokens. -/
def isBlank (b : UInt8) : Bool :=
  b == 0x20 || b == 0x0A || b == 0x09 || b == 0x0D

/-- The next octet, as the character of that number; nothing is taken. -/
def peek : Reader (Option Char) := fun input =>
  .ok (input.head?.map Char.ofUInt8, input)

/-- Takes blanks and shows the octet after them. -/
def ahead : Reader (Option Char) := fun input =>
  peek (input.dropWhile isBlank)

/-- Takes one octet. -/
def skip : Reader Unit := fun input =>
  .ok ((), input.tail)

def octet? : Reader (Option UInt8) := fun input =>
  .ok (input.head?, input.tail)

/-- Takes the octets of a literal word. -/
def word : Bytes → Reader Unit
  | [] => pure ()
  | b :: rest => do
    match ← octet? with
    | none => throw .endOfValue
    | some b' => if b' = b then word rest else throw .expectedIdent

/-- Takes the word `null`, of which the first letter is ahead. -/
def takeNull : Reader Unit :=
  word (octets "null")

/-- Takes the word `true`, of which the first letter is ahead. -/
def takeTrue : Reader Unit :=
  word (octets "true")

/-- Takes the word `false`, of which the first letter is ahead. -/
def takeFalse : Reader Unit :=
  word (octets "false")

/-- Takes steps until one gives a result; each but the last takes an octet, so that there are no
more of them than octets in `fuel`. -/
def loop {σ α : Type} (step : σ → Reader (σ ⊕ α)) : (fuel : Bytes) → σ → Reader α
  | [], s => do
    match ← step s with
    | .inl _ => throw .endOfValue
    | .inr a => pure a
  | _ :: fuel, s => do
    match ← step s with
    | .inl s' => loop step fuel s'
    | .inr a => pure a

/-- Takes steps until one gives a result. -/
def repeated {σ α : Type} (step : σ → Reader (σ ⊕ α)) (s : σ) : Reader α := fun input =>
  loop step input s input

/-! ## Arrays -/

/-- Moves to the next item of an array, or answers `false` before the closing bracket. -/
def nextItem (first : Bool) : Reader Bool := do
  match ← ahead with
  | none => throw .endOfList
  | some ']' => pure false
  | some c =>
    if first then pure true
    else if c = ',' then
      skip
      match ← ahead with
      | none => throw .endOfValue
      | some ']' => throw .trailingComma
      | some _ => pure true
    else throw .expectedCommaOrBracket

/-- Takes the items of an array, the opening bracket taken, and its closing bracket. -/
def items {α : Type} (item : Reader α) : Reader (List α) :=
  repeated (fun (first, taken) => do
    if ← nextItem first then
      return .inl (false, (← item) :: taken)
    else
      skip
      return .inr taken.reverse) (true, [])

/-! ## Objects -/

/-- Moves to the next key of an object, or answers `false` before the closing brace. -/
def nextKey (first : Bool) : Reader Bool := do
  match ← ahead with
  | none => throw .endOfObject
  | some '\x7d' => pure false
  | some c =>
    if first then
      if c = '"' then pure true else throw .keyNotString
    else if c = ',' then
      skip
      match ← ahead with
      | none => throw .endOfValue
      | some '"' => pure true
      | some '\x7d' => throw .trailingComma
      | some _ => throw .keyNotString
    else throw .expectedCommaOrBrace

/-- Takes the colon after a key. -/
def colon : Reader Unit := do
  match ← ahead with
  | none => throw .endOfObject
  | some ':' => skip
  | some _ => throw .expectedColon

/-! ## Strings -/

/-- Takes four hexadecimal digits. -/
def hexEscape : Reader Nat := fun input =>
  match input with
  | a :: b :: c :: d :: rest =>
    match Text.ofHex? ([a, b, c, d].map Char.ofUInt8) with
    | some n => .ok (n, rest)
    | none => .error .invalidEscape
  | _ => .error .endOfString

/-- Takes one given octet of the escape of a second half. -/
def escapeMark (mark : Char) : Reader Unit := do
  match ← peek with
  | none => throw .endOfString
  | some c => if c = mark then skip else throw .unexpectedEndOfHexEscape

/-- Takes a character written in hexadecimal, `\u` taken. A character beyond U+FFFF is written in
two halves. -/
def unicodeEscape : Reader Char := do
  let n ← hexEscape
  if 0xDC00 ≤ n ∧ n ≤ 0xDFFF then throw .loneSurrogate
  if n < 0xD800 ∨ 0xDBFF < n then return Char.ofNat n
  escapeMark '\\'
  escapeMark 'u'
  let m ← hexEscape
  if m < 0xDC00 ∨ 0xDFFF < m then throw .loneSurrogate
  return Char.ofNat (0x10000 + (n - 0xD800) * 0x400 + (m - 0xDC00))

/-- The character that a letter stands for after a backslash. -/
def escaped? : Char → Option Char
  | '"' => some '"'
  | '\\' => some '\\'
  | '/' => some '/'
  | 'b' => some '\x08'
  | 'f' => some '\x0C'
  | 'n' => some '\n'
  | 'r' => some '\r'
  | 't' => some '\t'
  | _ => none

/-- Takes the rest of an escape, the backslash taken. -/
def escape : Reader Char := do
  match ← octet? with
  | none => throw .endOfString
  | some b =>
    match escaped? (Char.ofUInt8 b) with
    | some c => pure c
    | none => if Char.ofUInt8 b = 'u' then unicodeEscape else throw .invalidEscape

/-- Takes a string, the opening quote taken. The octets it holds are checked when it ends. -/
def stringBody : Reader String :=
  repeated (fun (taken : Bytes) => do
    match ← octet? with
    | none => throw .endOfString
    | some b =>
      if b = 0x22 then
        match Text.Utf8.text? taken.reverse with
        | some s => return .inr s
        | none => throw .invalidCodePoint
      else if b = 0x5C then
        return .inl ((Text.Utf8.encodeChar (← escape)).reverse ++ taken)
      else if b < 0x20 then throw .controlCharacter
      else return .inl (b :: taken)) []

/-- Takes a string, of which the opening quote is ahead. -/
def string : Reader String := do
  skip
  stringBody

/-- Takes the members of an object, the opening brace taken, and its closing brace. What stands
after a key, the colon included, is up to `member`. -/
def members {σ : Type} (member : String → σ → Reader σ) (s : σ) : Reader σ :=
  repeated (fun (first, s) => do
    if ← nextKey first then
      let key ← string
      return .inl (false, ← member key s)
    else
      skip
      return .inr s) (true, s)

end Reader

end CrashCourier.Json
