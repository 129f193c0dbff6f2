import CrashCourier.Text.Hex
import CrashCourier.Text.Utf8
import CrashCourier.Yaml.Cursor
import CrashCourier.Yaml.Token

/-!
# Anchors, tags and directives

An anchor names a node and an alias stands for the node of its name. A tag says what a node is: a
handle, which a directive may give a meaning, and a suffix.
-/

namespace CrashCourier.Yaml.Scan

/-- Takes the name of an anchor or an alias, its indicator ahead. -/
def anchorName : Scan String := do
  skip 1
  let name ← takeWhile isWord
  let ends (c : Char) : Bool := "?:,]\x7d%@".toList.contains c || c == '\x60'
  let next ← peek 0
  if name = [] ∨ !(endsWord next || next.any ends) then failure
  return String.ofList name

/-- Takes a handle: an exclamation mark, and a name between two if there is one. -/
def tagHandle (inDirective : Bool) : Scan (List Char) := do
  if !(← sees '!') then failure
  skip 1
  let name ← takeWhile isWord
  if ← sees '!' then
    skip 1
    return '!' :: name ++ ['!']
  if inDirective && name ≠ [] then failure
  return '!' :: name

/-- Takes an octet written as a percent sign and two hexadecimal digits. -/
def uriOctet : Scan UInt8 := do
  if !(← sees '%') then failure
  match ← peek 1, ← peek 2 with
  | some a, some b =>
    let some n := Text.ofHex? [a, b] | failure
    skip 3
    return UInt8.ofNat n
  | _, _ => failure

/-- How many octets a character has, by the first of them. -/
def octetCount? (b : UInt8) : Option Nat :=
  if b < 0x80 then some 1
  else if b < 0xC0 then none
  else if b < 0xE0 then some 2
  else if b < 0xF0 then some 3
  else if b < 0xF8 then some 4
  else none

/-- Takes octets that continue a character. -/
def uriTail : Nat → Scan Bytes
  | 0 => return []
  | n + 1 => do
    let b ← uriOctet
    if b < 0x80 ∨ 0xBF < b then failure
    return b :: (← uriTail n)

/-- Takes a character written as percent signs and hexadecimal digits. -/
def uriEscape : Scan (List Char) := do
  let b ← uriOctet
  let some n := octetCount? b | failure
  return Text.Utf8.decodeLossy (b :: (← uriTail (n - 1)))

/-- Whether a character may be part of a tag as it is. In a tag that is written out, between angle
brackets or in a directive, some more may. -/
def isUri (whole : Bool) (c : Char) : Bool :=
  isWord c || ";/?:@&=+$.%!~*'()".toList.contains c || whole && ",[]".toList.contains c

/-- Takes a tag, or the rest of one that begins with `head`, of which the first character is
dropped. -/
def tagUri (whole : Bool) (head : List Char) : Scan (List Char) := do
  let taken ← repeated (fun (taken : List Char) => do
    match ← peek 0 with
    | some '%' => return .inl (taken ++ (← uriEscape))
    | some c =>
      if isUri whole c then
        skip 1
        return .inl (taken ++ [c])
      else return .inr taken
    | none => return .inr taken) []
  if head = [] ∧ taken = [] then failure
  return head.drop 1 ++ taken

def tag (inFlow : Bool) : Scan Token := do
  let (handle, suffix) ← (do
    if (← peek 1) == some '<' then
      skip 2
      let suffix ← tagUri true []
      if !(← sees '>') then failure
      skip 1
      return ([], suffix)
    else
      let handle ← tagHandle false
      if 1 < handle.length && handle.getLast? == some '!' then
        return (handle, ← tagUri false [])
      else
        let suffix ← tagUri false handle
        return if suffix = [] then ([], ['!']) else (['!'], suffix))
  if !(endsWord (← peek 0) || inFlow && (← sees ',')) then failure
  return .tag (String.ofList handle) (String.ofList suffix)

/-- Takes one of the two numbers of a version. -/
def versionNumber : Scan Nat := do
  let digits ← takeWhile Char.isDigit
  if digits = [] ∨ 9 < digits.length then failure
  return digits.foldl (fun n d => n * 10 + (d.toNat - 48)) 0

/-- Takes a directive, its percent sign ahead, and the line that it stands on. -/
def directive : Scan Token := do
  skip 1
  let name ← takeWhile isWord
  if !endsWord (← peek 0) then failure
  let token ← (match String.ofList name with
    | "YAML" => do
      skipBlanks
      let major ← versionNumber
      if !(← sees '.') then failure
      skip 1
      return Token.version major (← versionNumber)
    | "TAG" => do
      skipBlanks
      let handle ← tagHandle true
      if !(← peek 0).any isBlank then failure
      skipBlanks
      let stands ← tagUri true []
      if !endsWord (← peek 0) then failure
      return Token.tagDirective (String.ofList handle) (String.ofList stands)
    | _ => failure : Scan Token)
  endLine
  return token

end CrashCourier.Yaml.Scan
