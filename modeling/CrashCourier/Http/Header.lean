/-!
# Headers

A header is a name and a value. Names do not distinguish upper and lower case and are kept in lower
case.
-/

namespace CrashCourier.Http

/-- Whether a character may be part of a header's name. -/
def isNameChar (c : Char) : Bool :=
  c.isAlphanum || "!#$%&'*+-.^_|~".toList.contains c || c == '\x60'

/-- Whether a character may be part of a header's value: anything but a control other than the
tab. -/
def isValueChar (c : Char) : Bool :=
  c == '\t' || (' ' ≤ c && c ≠ '\x7F')

/-- A header as it is sent. -/
abbrev Header := String × String

/-- The text in lower case, for letters of ASCII. -/
def lowered (s : String) : String :=
  String.ofList (s.toList.map Char.toLower)

/-- The header of a name and a value, if they may be sent. -/
def header? (name value : String) : Option Header :=
  if name ≠ "" ∧ name.toList.all isNameChar ∧ value.toList.all isValueChar then
    some (lowered name, value)
  else none

/-- A header as it arrives: blanks around its value do not count. -/
def received (h : Header) : Header :=
  let isBlank (c : Char) : Bool := c == ' ' || c == '\t'
  (h.1, String.ofList ((h.2.toList.dropWhile isBlank).reverse.dropWhile isBlank).reverse)

end CrashCourier.Http
