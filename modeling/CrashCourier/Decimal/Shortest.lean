import CrashCourier.Binary64

/-!
# The shortest decimal of a binary64 number

The decimals that read back as a number are those of an interval: from the middle between it and
the magnitude below to the middle between it and the magnitude above, the two ends included if the
number's significand is even. Of them `shortest` takes one with the fewest digits, and of those the
nearest. It tries 1, 2, … 17 digits: a grid that has a point in the interval has one next to the
number.
-/

namespace CrashCourier

/-- The decimal `digits * 10 ^ exponent`. -/
structure Decimal where
  /-- The digits, as a whole number. -/
  digits : Nat
  /-- The power of ten that scales them. -/
  exponent : Int
  deriving DecidableEq

namespace Decimal

/-- How many decimal digits a natural number has. -/
def digitCount (n : Nat) : Nat :=
  (Nat.toDigits 10 n).length

/-- A number and the ends of its interval, as quarters of the unit `2 ^ exponent`. -/
structure Interval where
  low : Nat
  value : Nat
  high : Nat
  /-- Whether the ends belong to the interval. -/
  closed : Bool

/-- The interval of decimals that read back as `x`. Below the least significand of an exponent the
magnitudes are twice as dense. -/
def Interval.of (x : Binary64) : Interval :=
  let m := x.significand
  let least := m = Binary64.band ∧ -1074 < x.exponent
  ⟨if least then 4 * m - 1 else 4 * m - 2, 4 * m, 4 * m + 2, m % 2 == 0⟩

/-- Whether `n / d` quarters lie in the interval. -/
def Interval.holds (i : Interval) (n d : Nat) : Bool :=
  if i.closed then i.low * d ≤ n && n ≤ i.high * d else i.low * d < n && n < i.high * d

/-- The exponent of the first digit of `n / d`. -/
def leadingExponent (n d : Nat) : Int :=
  if d ≤ n then (digitCount (n / d) : Int) - 1 else -(digitCount ((d + n - 1) / n - 1) : Int)

/-- A fraction multiplied by a power of ten. -/
def scale (n d : Nat) (e : Int) : Nat × Nat :=
  if 0 ≤ e then (n * Nat.pow 10 e.toNat, d) else (n, d * Nat.pow 10 (-e).toNat)

/-- The point of the grid of step `10 ^ e` that lies in the interval and next to the value, the
nearer one if both do, the even one if they are as near. A quarter is worth `n / d`. -/
def onGrid? (i : Interval) (n d : Nat) (e : Int) : Option Decimal :=
  let (n', d') := scale n d (-e)
  let c := i.value * n' / d'
  let inside (k : Nat) := i.holds (k * d') n'
  let below := i.value * n' - c * d'
  let above := (c + 1) * d' - i.value * n'
  match inside c, inside (c + 1) with
  | false, false => none
  | true, false => some ⟨c, e⟩
  | false, true => some ⟨c + 1, e⟩
  | true, true =>
    if below < above ∨ below = above ∧ c % 2 = 0 then some ⟨c, e⟩ else some ⟨c + 1, e⟩

/-- Drops the zeros at the end of the digits. -/
def stripZeros : Nat → Decimal → Decimal
  | 0, x => x
  | fuel + 1, x =>
    if x.digits % 10 = 0 ∧ x.digits ≠ 0 then stripZeros fuel ⟨x.digits / 10, x.exponent + 1⟩ else x

/-- The first grid of `count` or more digits with a point in the interval. -/
def search (i : Interval) (n d : Nat) (leading : Int) : Nat → Nat → Option Decimal
  | 0, _ => none
  | tries + 1, count =>
    (onGrid? i n d (leading - count + 1)).orElse fun _ => search i n d leading tries (count + 1)

/-- The shortest decimal that reads back as the magnitude of `x`, and of those the nearest. -/
def shortest (x : Binary64) : Decimal :=
  if x.significand = 0 then ⟨0, 0⟩
  else
    let i := Interval.of x
    let (n, d) := Binary64.shift 1 4 x.exponent
    let leading := leadingExponent (i.value * n) d
    ((search i n d leading 17 1).map (stripZeros 20)).getD ⟨x.significand, 0⟩

end Decimal

end CrashCourier
