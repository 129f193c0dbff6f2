import CrashCourier.Text.Percent
import CrashCourier.Text.Punycode

/-!
# Hosts

A host is a name, an address of four numbers, or one of eight in brackets. Names are kept in lower
case; a label of a name with characters beyond ASCII is kept in its encoded form.
-/

namespace CrashCourier.Http.Host

/-! ## Addresses of four numbers -/

/-- The value of digits in a base; no digits are zero. -/
def ofDigits? (base : Nat) (cs : List Char) : Option Nat :=
  cs.foldl (fun acc c => do
    let d ← Text.hexValue? c
    if d < base then return (← acc) * base + d else none) (some 0)

/-- One number of an address, in base 16 or 8 if it has the mark of one. -/
def number? : List Char → Option Nat
  | [] => none
  | '0' :: 'x' :: rest => ofDigits? 16 rest
  | '0' :: 'X' :: rest => ofDigits? 16 rest
  | '0' :: d :: rest => ofDigits? 8 (d :: rest)
  | cs => ofDigits? 10 cs

/-- The labels of a name, without an empty one at its end. -/
def labels (cs : List Char) : List (List Char) :=
  let parts := cs.splitOn '.'
  if 1 < parts.length ∧ parts.getLast? = some [] then parts.dropLast else parts

/-- Whether a name ends in a number, so that it has to be an address. -/
def endsInNumber (cs : List Char) : Bool :=
  match (labels cs).getLast? with
  | some last => last ≠ [] && (last.all Char.isDigit || (last.head? == some '0' &&
      (last[1]? == some 'x' || last[1]? == some 'X') && (number? last).isSome))
  | none => false

/-- The address that up to four numbers make: each is an octet but the last, which fills up the
rest. -/
def address? (numbers : List Nat) : Option Nat :=
  let n := numbers.length
  match numbers.getLast? with
  | none => none
  | some last =>
    let octets := numbers.dropLast
    if 4 < n ∨ octets.any (255 < ·) ∨ Nat.pow 256 (5 - n) ≤ last then none
    else
      some ((octets.zipIdx.map fun (octet, i) => octet * Nat.pow 256 (3 - i)).foldl (· + ·) last)

/-- The text of an address of four octets. -/
def addressText (n : Nat) : List Char :=
  let part (i : Nat) := toString (n / Nat.pow 256 i % 256)
  (".".intercalate [part 3, part 2, part 1, part 0]).toList

/-! ## Addresses of eight numbers -/

/-- A group of up to four hexadecimal digits. -/
def group? (cs : List Char) : Option Nat :=
  if cs = [] ∨ 4 < cs.length then none else ofDigits? 16 cs

/-- The two groups that four octets in base ten make. -/
def quad? (cs : List Char) : Option (List Nat) := do
  let parts := cs.splitOn '.'
  if parts.length ≠ 4 then none
  let octets ← parts.mapM fun p =>
    if p = [] ∨ !p.all Char.isDigit ∨ (1 < p.length ∧ p.head? = some '0') then none
    else (ofDigits? 10 p).filter (· < 256)
  match octets with
  | [a, b, c, d] => some [a * 256 + b, c * 256 + d]
  | _ => none

/-- Groups with colons between them; the last two may be written as four octets. -/
def groups? (last : Bool) (cs : List Char) : Option (List Nat) :=
  if cs = [] then some []
  else
    let parts := cs.splitOn ':'
    match parts.getLast? with
    | some p =>
      if last ∧ p.contains '.' then do
        return (← parts.dropLast.mapM group?) ++ (← quad? p)
      else parts.mapM group?
    | none => none

/-- Splits a text at its first two colons in a row. -/
def splitGap : List Char → Option (List Char × List Char)
  | [] => none
  | ':' :: ':' :: rest => some ([], rest)
  | c :: rest => (splitGap rest).map fun (a, b) => (c :: a, b)

/-- The eight groups of an address; two colons in a row stand for as many zeros as are missing. -/
def eight? (cs : List Char) : Option (List Nat) := do
  match splitGap cs with
  | some (a, b) =>
    let before ← groups? false a
    let behind ← groups? true b
    let n := before.length + behind.length
    if n < 8 then return before ++ List.replicate (8 - n) 0 ++ behind else none
  | none =>
    let all ← groups? true cs
    if all.length = 8 then return all else none

/-- How many zeros a list begins with. -/
def zeros (groups : List Nat) : Nat :=
  (groups.takeWhile (· == 0)).length

/-- Where the longest run of at least two zeros begins, the first of equally long ones. -/
def longestGap (groups : List Nat) : Option (Nat × Nat) :=
  (List.range groups.length).foldl (fun best i =>
    let n := zeros (groups.drop i)
    if 2 ≤ n ∧ best.all (·.2 < n) then some (i, n) else best) none

/-- The text of an address of eight groups. -/
def eightText (groups : List Nat) : List Char :=
  let join (gs : List Nat) : List Char := List.intercalate [':'] (gs.map fun g => Text.hex 1 g)
  match longestGap groups with
  | some (i, n) => join (groups.take i) ++ [':', ':'] ++ join (groups.drop (i + n))
  | none => join groups

/-! ## Names -/

/-- Whether a character must not stand in a name. -/
def isForbidden (c : Char) : Bool :=
  c ≤ ' ' || c == '\x7F' || "#%/:<>?@[\\]^|".toList.contains c

/-- The form in which a label is kept. -/
def label (cs : List Char) : List Char :=
  let cs := cs.map Char.toLower
  if cs.all (·.toNat < 128) then cs else "xn--".toList ++ Text.Punycode.encode cs

/-- The form in which a name or an address of four numbers is kept. -/
def name? (cs : List Char) : Option (List Char) := do
  let decoded ← Text.Utf8.decode? (Text.percentDecode cs)
  let name := List.intercalate ['.'] ((decoded.splitOn '.').map label)
  if name = [] ∨ name.any isForbidden then none
  else if endsInNumber name then
    return addressText (← address? (← (labels name).mapM number?))
  else return name

/-- The form in which a host is kept. -/
def ofText? (cs : List Char) : Option (List Char) :=
  match cs with
  | '[' :: rest =>
    if rest.getLast? = some ']' then
      (eight? rest.dropLast).map fun gs => '[' :: eightText gs ++ [']']
    else none
  | _ => name? cs

/-- The form in which a host is kept whose scheme gives it no meaning. -/
def kept? (cs : List Char) : Option (List Char) :=
  match cs with
  | '[' :: _ => ofText? cs
  | _ =>
    if cs.any fun c => c == '\x00' || " #/:<>?@[\\]^|\t\n\r".toList.contains c then none
    else some (Text.percentEncode (fun _ => true) cs)

end CrashCourier.Http.Host
