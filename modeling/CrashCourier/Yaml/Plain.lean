import CrashCourier.Mismatch
import CrashCourier.Text.Hex
import CrashCourier.Yaml.Token

/-!
# What a plain scalar stands for

A plain scalar is a truth value, a number or no value if it is written like one, and else a text.
Whole numbers may be written in base 16, 8 or 2 after a mark. Digits with a zero in front are a
text.
-/

namespace CrashCourier.Yaml

/-- The value of digits in a base, the first the most significant; at least one is needed. -/
def ofDigits? (base : Nat) (digits : List Char) : Option Nat :=
  if digits = [] then none
  else digits.foldl (fun acc c => do
    let d ← Text.hexValue? c
    if d < base then return (← acc) * base + d else none) (some 0)

/-- What is left of a text after a beginning. -/
def after? (beginning text : List Char) : Option (List Char) :=
  beginning.isPrefixOf? text

/-- The text without a sign in front, if there is one of those given. -/
def unsigned (signs : List Char) : List Char → List Char
  | c :: rest => if signs.contains c then rest else c :: rest
  | [] => []

/-- Whether a text is digits with a zero in front. -/
def isPadded (text : List Char) : Bool :=
  match unsigned ['-', '+'] text with
  | '0' :: d :: rest => (d :: rest).all Char.isDigit
  | _ => false

def isSigned (text : List Char) : Bool :=
  text.head? == some '+' || text.head? == some '-'

/-- The marks of the bases other than ten. -/
def bases : List (List Char × Nat) := [(['0', 'x'], 16), (['0', 'o'], 8), (['0', 'b'], 2)]

/-- The number that a text writes in a base other than ten, its mark in front. -/
def marked? (text : List Char) : Option Nat :=
  bases.findSome? fun (mark, base) => (after? mark text).bind (ofDigits? base)

/-- Whether a text has the mark of a base and then a sign. -/
def hasSignAfterMark (text : List Char) : Bool :=
  bases.any fun (mark, _) => (after? mark text).any isSigned

/-- The natural number up to `greatest` that a text writes. -/
def natural? (greatest : Nat) (text : List Char) : Option Nat :=
  let positive := unsigned ['+'] text
  if hasSignAfterMark positive then none
  else
    match (marked? positive).filter (· ≤ greatest) with
    | some n => some n
    | none =>
      if isPadded text then none else (ofDigits? 10 positive).filter (· ≤ greatest)

/-- The negative number down to `-greatest` that a text writes, given by its magnitude. -/
def negative? (greatest : Nat) (text : List Char) : Option Nat :=
  match text with
  | '-' :: rest =>
    match (marked? rest).filter (· ≤ greatest) with
    | some n => some n
    | none => if isPadded text then none else (ofDigits? 10 rest).filter (· ≤ greatest)
  | _ => none

/-- The digits of a fraction: those before the point, those behind it, and what is left. At least
one is needed. -/
def mantissa? (text : List Char) : Option (List Char × List Char × List Char) :=
  let whole := text.takeWhile Char.isDigit
  let (fraction, rest) := match text.dropWhile Char.isDigit with
    | '.' :: rest => (rest.takeWhile Char.isDigit, rest.dropWhile Char.isDigit)
    | rest => ([], rest)
  if whole = [] ∧ fraction = [] then none else some (whole, fraction, rest)

/-- The exponent of a number, if one is written, and nothing after it. -/
def exponent? : List Char → Option Int
  | [] => some 0
  | 'e' :: rest | 'E' :: rest =>
    let digits := unsigned ['+', '-'] rest
    if digits.all Char.isDigit then
      (ofDigits? 10 digits).map fun n => if rest.head? = some '-' then -(n : Int) else n
    else none
  | _ => none

/-- The binary64 number that a text writes in base ten. -/
def decimal? (text : List Char) : Option Binary64 := do
  let negative := text.head? = some '-'
  let (whole, fraction, rest) ← mantissa? (unsigned ['-'] text)
  let e ← exponent? rest
  let digits ← ofDigits? 10 (whole ++ fraction)
  Binary64.ofDecimal? negative digits (e - fraction.length)

/-- The names of truth values. -/
def truth? (text : String) : Option Bool :=
  if ["true", "True", "TRUE"].contains text then some true
  else if ["false", "False", "FALSE"].contains text then some false
  else none

/-- Whether a text is a name for no value. -/
def isNull (text : String) : Bool :=
  ["null", "Null", "NULL", "~"].contains text

/-- The whole number that a text writes. -/
def whole? (text : List Char) : Option Found :=
  let number (f : Nat → Found) (o : Option Nat) := o.map f
  number (fun n => .whole n) (natural? 0xFFFFFFFFFFFFFFFF text) <|>
  number (fun n => .whole (-(n : Int))) (negative? 0x8000000000000000 text) <|>
  number (fun n => .wide n) (natural? 0xFFFFFFFFFFFFFFFFFFFFFFFFFFFFFFFF text) <|>
  number (fun n => .wide (-(n : Int))) (negative? 0x80000000000000000000000000000000 text)

/-- The number with a fraction, or the infinite one, that a text writes. -/
def real? (text : List Char) : Option Found :=
  let positive := unsigned ['+'] text
  let s := String.ofList text
  if text.head? = some '+' ∧ isSigned positive then none
  else if [".inf", ".Inf", ".INF"].contains (String.ofList positive) then some (.infinite false)
  else if ["-.inf", "-.Inf", "-.INF"].contains s then some (.infinite true)
  else if [".nan", ".NaN", ".NAN"].contains s then some .notANumber
  else (decimal? positive).map .real

/-- What a plain scalar stands for. -/
def plainFound (text : String) : Found :=
  let cs := text.toList
  if text.isEmpty ∨ isNull text then .nothing
  else
    match truth? text, whole? cs with
    | some b, _ => .truth b
    | none, some found => found
    | none, none => (if isPadded cs then none else real? cs).getD (.text text)

/-- What a scalar stands for: a plain one what it is written like, unless its tag says otherwise;
any other one a text. -/
def scalarFound (text : String) (style : Style) (tag : Option String) : Except Mismatch Found :=
  let as (wanted : Wanted) (o : Option Found) : Except Mismatch Found :=
    o.elim (.error (.value (.text text) wanted)) .ok
  match tag with
  | some "tag:yaml.org,2002:bool" => as .taggedTruth ((truth? text).map .truth)
  | some "tag:yaml.org,2002:int" => as .taggedWhole (whole? text.toList)
  | some "tag:yaml.org,2002:float" => as .taggedReal (real? text.toList)
  | some "tag:yaml.org,2002:null" =>
    as .taggedNothing (if isNull text then some .nothing else none)
  | some tag =>
    .ok (if tag.toList.head? = some '!' ∧ style = .plain then plainFound text else .text text)
  | none => .ok (if style = .plain then plainFound text else .text text)

end CrashCourier.Yaml
