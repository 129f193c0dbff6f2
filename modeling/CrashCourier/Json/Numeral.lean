import CrashCourier.Json.Reader
import CrashCourier.Json.Value

/-!
# Numerals

A numeral is digits, with a fraction and an exponent if they are written. Its digits are collected
as long as they make a number of 64 bits; of those after, the ones before the point only scale it
and the ones behind the point are dropped. A numeral without fraction and exponent whose digits all
fit is a whole number. Any other becomes the binary64 number nearest to the collected digits, scaled
by a power of ten: one rounding for the digits, one for the power, one for the product or quotient.
-/

namespace CrashCourier.Json

structure Numeral where
  negative : Bool
  /-- The digits before the point. -/
  whole : List Nat
  /-- The digits behind the point. -/
  fraction : Option (List Nat)
  /-- Whether the exponent is negative, and its digits. -/
  power : Option (Bool × List Nat)

namespace Numeral

/-- The greatest number that digits are collected into. -/
def greatest : Nat := 0xFFFFFFFFFFFFFFFF

/-- Collects digits while they fit: the number, and how many digits are left. -/
def collect : (sum : Nat) → List Nat → Nat × Nat
  | sum, [] => (sum, 0)
  | sum, d :: rest =>
    if sum * 10 + d ≤ greatest then collect (sum * 10 + d) rest else (sum, rest.length + 1)

def value (digits : List Nat) : Nat :=
  digits.foldl (fun n d => n * 10 + d) 0

/-- A magnitude scaled by a power of ten. Powers down to -308 divide once. A lower one divides by
ten to the 308th first, after which nothing is left below -616. -/
def scaled (digits : Nat) (e : Int) : Except Fault Binary64 :=
  let fit (x : Option Binary64) : Except Fault Binary64 := x.elim (throw .numberOutOfRange) pure
  let power (k : Nat) := Binary64.ofNat? (Nat.pow 10 k)
  let base := Binary64.ofNat? digits
  if digits = 0 then pure (Binary64.zero false)
  else if 0 ≤ e then
    if e ≤ 308 then fit (do (← base).mul? (← power e.toNat)) else throw .numberOutOfRange
  else if -308 ≤ e then fit (do (← base).div? (← power (-e).toNat))
  else if -616 ≤ e then
    fit (do (← (← base).div? (← power 308)).div? (← power (-308 - e).toNat))
  else pure (Binary64.zero false)

/-- The greatest exponent that can be written out. -/
def greatestPower : Nat := 0x7FFFFFFF

def number (n : Numeral) : Except Fault Number := do
  let sign (x : Binary64) : Number := .real (if n.negative then x.neg else x)
  let (sum, left) := collect 0 n.whole
  if n.fraction.isNone ∧ n.power.isNone ∧ left = 0 then
    if n.negative then
      if h : 0 < sum ∧ sum ≤ Negative.greatest then return .negative ⟨sum, h.1, h.2⟩
      return sign (← scaled sum 0)
    return .natural (UInt64.ofNat sum)
  let behind := n.fraction.getD []
  let (sum, dropped) := collect sum behind
  let e : Int := left - (behind.length - dropped : Nat)
  match n.power with
  | none => return sign (← scaled sum e)
  | some (down, digits) =>
    let p := value digits
    if greatestPower < p then
      if sum = 0 ∨ down then return sign (Binary64.zero false)
      throw .numberOutOfRange
    return sign (← scaled sum (if down then e - p else e + p))

end Numeral

namespace Reader

def digit? (b : UInt8) : Option Nat :=
  if 0x30 ≤ b ∧ b ≤ 0x39 then some (b.toNat - 0x30) else none

def digits : Reader (List Nat) := fun input =>
  let isDigit (b : UInt8) := (digit? b).isSome
  .ok ((input.takeWhile isDigit).filterMap digit?, input.dropWhile isDigit)

/-- Takes one or more digits; `atEnd` is the fault if the text ends instead. -/
def someDigits (atEnd : Fault) : Reader (List Nat) := do
  match ← digits with
  | [] => if (← peek).isNone then throw atEnd else throw .invalidNumber
  | ds => pure ds

/-- Takes the digits before the point: a zero stands alone. -/
def wholeDigits (atEnd : Fault) : Reader (List Nat) := do
  let ds ← someDigits atEnd
  if ds.head? = some 0 ∧ ds.length ≠ 1 then throw .invalidNumber
  return ds

/-- Takes the fraction, if there is a point. -/
def fraction (atEnd : Fault) : Reader (Option (List Nat)) := do
  match ← peek with
  | some '.' =>
    skip
    return some (← someDigits atEnd)
  | _ => return none

/-- Takes the exponent, if there is one: whether it is negative, and its digits. -/
def power (atEnd : Fault) : Reader (Option (Bool × List Nat)) := do
  let c ← peek
  if c = some 'e' ∨ c = some 'E' then
    skip
    match ← peek with
    | some '+' =>
      skip
      return some (false, ← someDigits atEnd)
    | some '-' =>
      skip
      return some (true, ← someDigits atEnd)
    | _ => return some (false, ← someDigits atEnd)
  else return none

/-- Takes a numeral, of which the sign or the first digit is ahead. -/
def numeral (atEnd : Fault) : Reader Numeral := do
  let negative := (← peek) = some '-'
  if negative then skip
  let whole ← wholeDigits atEnd
  let fraction ← fraction atEnd
  let power ← power atEnd
  return ⟨negative, whole, fraction, power⟩

/-- Takes a number, of which the sign or the first digit is ahead. -/
def number : Reader Number := do
  (← numeral .endOfValue).number

/-- Whether a character begins a number. -/
def startsNumber (c : Char) : Bool :=
  c == '-' || c.isDigit

end Reader

end CrashCourier.Json
