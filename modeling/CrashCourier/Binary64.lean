/-!
# Binary64 numbers

The finite floating-point numbers of 64 bits. A number is a sign and a rank: its place in the
ascending list of all magnitudes, which is also the pattern of its bits without the sign. Rank and
value are tied by `significand` and `exponent`: the magnitude is `significand * 2 ^ exponent`.

All arithmetic is exact on natural numbers and rounds once, to the nearest magnitude, a tie going
to the even rank. A result beyond the greatest magnitude is `none`.
-/

namespace CrashCourier

/-- How many magnitudes have one exponent: two to the 52nd. -/
def Binary64.band : Nat := 0x10000000000000

/-- A finite floating-point number of 64 bits. -/
structure Binary64 where
  /-- The sign bit. -/
  negative : Bool
  /-- How many magnitudes are smaller. -/
  rank : Nat
  /-- The magnitude is finite. -/
  rank_lt : rank < 2047 * Binary64.band
  deriving DecidableEq

namespace Binary64

/-- Zero, with the sign it is given. -/
def zero (negative : Bool) : Binary64 :=
  ⟨negative, 0, by decide⟩

/-- The whole number that a power of two scales to the magnitude. -/
def significand (x : Binary64) : Nat :=
  if x.rank < band then x.rank else band + x.rank % band

/-- The exponent of that power of two. -/
def exponent (x : Binary64) : Int :=
  if x.rank < band then -1074 else (x.rank / band : Nat) - 1075

/-- The opposite number. -/
def neg (x : Binary64) : Binary64 :=
  { x with negative := !x.negative }

/-- Whether two numbers have one value: the two zeros do. -/
def same (x y : Binary64) : Bool :=
  x.rank == y.rank && (x.negative == y.negative || x.rank == 0)

/-- The quotient rounded to the nearest whole number, a tie to the even one. -/
def divNearest (n d : Nat) : Nat :=
  let m := n / d
  let r := n % d
  if d < 2 * r ∨ d = 2 * r ∧ m % 2 = 1 then m + 1 else m

/-- A fraction multiplied by a power of two. -/
def shift (n d : Nat) (e : Int) : Nat × Nat :=
  if 0 ≤ e then (n * Nat.pow 2 e.toNat, d) else (n, d * Nat.pow 2 (-e).toNat)

/-- The exponent at which `n / d` has 53 bits before the point, or the least exponent there is. -/
def exponentOf (n d : Nat) : Int :=
  -- the bit lengths give the exponent or one less
  let e : Int := (n.log2 : Int) - d.log2 - 53
  let (n', d') := shift n d (-e)
  max (-1074) (if 2 * band * d' ≤ n' then e + 1 else e)

/-- The rank of the magnitude nearest to `n / d`, were there no greatest one. -/
def rankOf (n d : Nat) : Nat :=
  if n = 0 then 0
  else
    let e := exponentOf n d
    let (n', d') := shift n d (-e)
    (e + 1074).toNat * band + divNearest n' d'

/-- The number nearest to `n / d`. -/
def ofRatio? (negative : Bool) (n d : Nat) : Option Binary64 :=
  if h : rankOf n d < 2047 * band then some ⟨negative, rankOf n d, h⟩ else none

/-- The number nearest to a natural number. -/
def ofNat? (n : Nat) : Option Binary64 :=
  ofRatio? false n 1

/-- The product of two numbers, rounded once. -/
def mul? (x y : Binary64) : Option Binary64 :=
  let (n, d) := shift (x.significand * y.significand) 1 (x.exponent + y.exponent)
  ofRatio? (x.negative != y.negative) n d

/-- The quotient of two numbers, rounded once; `none` too if the divisor is zero. -/
def div? (x y : Binary64) : Option Binary64 :=
  if y.significand = 0 then none
  else
    let (n, d) := shift x.significand y.significand (x.exponent - y.exponent)
    ofRatio? (x.negative != y.negative) n d

/-- The number nearest to `digits * 10 ^ e`. A decimal whose first digit stands at 10³¹⁰ or above
is too great, one whose first digit stands below 10⁻³³⁰ is nearest to zero. -/
def ofDecimal? (negative : Bool) (digits : Nat) (e : Int) : Option Binary64 :=
  let first : Int := (Nat.toDigits 10 digits).length + e
  if digits = 0 ∨ first < -330 then some (zero negative)
  else if 310 < first then none
  else if 0 ≤ e then ofRatio? negative (digits * Nat.pow 10 e.toNat) 1
  else ofRatio? negative digits (Nat.pow 10 (-e).toNat)

end Binary64

end CrashCourier
