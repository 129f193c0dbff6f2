import CrashCourier.Text.Hex

/-!
# Names of report files

A report file is named for its bundle and its number. The number is written as the sixteen
hexadecimal digits of its two's complement. Reading a name takes digits of either case, and a plus
sign in place of the first digit.
-/

namespace CrashCourier.ReportName

/-- What stands between the bundle and the number. -/
def middle : List Char := "-report-".toList

/-- What stands behind the number. -/
def ending : List Char := ".json".toList

/-- How many characters the number takes. -/
def width : Nat := 16

def digits (id : Int64) : List Char :=
  Text.hex width id.toUInt64.toNat

/-- The name of the report of a number. -/
def format (bundleId : String) (id : Int64) : String :=
  String.ofList (bundleId.toList ++ middle ++ digits id ++ ending)

def ofDigits? (cs : List Char) : Option Int64 :=
  if cs.length = width then
    let cs := match cs with
      | '+' :: rest => rest
      | cs => cs
    (Text.ofHex? cs).map fun n => (UInt64.ofNat n).toInt64
  else none

/-- What is left of a text without its ending, if it has that ending. -/
def withoutEnding? (ending text : List Char) : Option (List Char) :=
  (ending.reverse.isPrefixOf? text.reverse).map List.reverse

/-- The number of the report of a name, if it is one of the bundle. -/
def parse? (name bundleId : String) : Option Int64 := do
  let rest ← bundleId.toList.isPrefixOf? name.toList
  let rest ← middle.isPrefixOf? rest
  ofDigits? (← withoutEnding? ending rest)

end CrashCourier.ReportName
