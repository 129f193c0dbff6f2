import CrashCourier.Decimal.Shortest

/-!
# How a binary64 number is written

The digits are the shortest that read back. A layout says which numbers are written with all their
places and which with an exponent.
-/

namespace CrashCourier.Decimal

/-- The decisions of a way to write numbers. -/
structure Layout where
  /-- Whether a number whose first digit stands at this power of ten is written with all its
  places. -/
  positional : Int → Bool

/-- Numbers in JSON have all their places from a hundred-thousandth to below ten to the
sixteenth. -/
def Layout.json : Layout := ⟨fun e => -5 ≤ e && e ≤ 15⟩

/-- Numbers with all their places whatever their size. -/
def Layout.full : Layout := ⟨fun _ => true⟩

/-- A decimal with all its places, at least one of them after the point. -/
def positionalText (x : Decimal) : String :=
  let ds := Nat.toDigits 10 x.digits
  if 0 ≤ x.exponent then
    String.ofList (ds ++ List.replicate x.exponent.toNat '0' ++ ['.', '0'])
  else
    let places := (-x.exponent).toNat
    let ds := List.replicate (places + 1 - ds.length) '0' ++ ds
    String.ofList (ds.take (ds.length - places) ++ '.' :: ds.drop (ds.length - places))

/-- A decimal with one digit before the point and a signed exponent; without a point if it has only
one digit. -/
def exponentText (x : Decimal) : String :=
  let ds := Nat.toDigits 10 x.digits
  let e : Int := x.exponent + ds.length - 1
  let mantissa := match ds with
    | [] => []
    | [d] => [d]
    | d :: rest => d :: '.' :: rest
  String.ofList mantissa ++ "e" ++ (if 0 ≤ e then "+" else "-") ++ toString e.natAbs

/-- The text of a number. -/
def Layout.text (layout : Layout) (x : Binary64) : String :=
  let d := shortest x
  let leading : Int := d.exponent + digitCount d.digits - 1
  (if x.negative then "-" else "") ++
    if layout.positional leading then positionalText d else exponentText d

end CrashCourier.Decimal
