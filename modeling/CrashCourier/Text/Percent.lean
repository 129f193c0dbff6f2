import CrashCourier.Text.Hex

/-!
# Percent encoding

An octet that must not stand in a part of an address is written as a percent sign and two
hexadecimal digits in upper case.
-/

namespace CrashCourier.Text

/-- An octet as a percent sign and two digits. -/
def percentOctet (b : UInt8) : List Char :=
  '%' :: (hex 2 b.toNat).map Char.toUpper

/-- A character as it is, or, if it is not `plain` or not of ASCII, its octets encoded. -/
def percentChar (plain : Char → Bool) (c : Char) : List Char :=
  if ' ' ≤ c && c ≤ '~' && plain c then [c] else (Utf8.encodeChar c).flatMap percentOctet

/-- A text with the characters encoded that are not `plain`. -/
def percentEncode (plain : Char → Bool) (cs : List Char) : List Char :=
  cs.flatMap (percentChar plain)

/-- The octets of a text, those that are encoded put in their place. A percent sign without two
digits stands for itself. -/
def percentDecode : List Char → Bytes
  | [] => []
  | '%' :: a :: b :: rest =>
    match ofHex? [a, b] with
    | some n => UInt8.ofNat n :: percentDecode rest
    | none => Utf8.encodeChar '%' ++ percentDecode (a :: b :: rest)
  | c :: rest => Utf8.encodeChar c ++ percentDecode rest

end CrashCourier.Text
