import CrashCourier.Text.Hex
import CrashCourier.Text.Unprintable

/-!
# Quoted text

How messages show a text: in double quotes, with a backslash before quotes and backslashes, short
names for NUL, tab, carriage return and line feed, and the code point of every other character
without a picture of its own.
-/

namespace CrashCourier.Text

/-- How a quoted text shows one character. -/
def quoteChar (c : Char) : List Char :=
  match c with
  | '\x00' => ['\\', '0']
  | '\t' => ['\\', 't']
  | '\r' => ['\\', 'r']
  | '\n' => ['\\', 'n']
  | '\\' => ['\\', '\\']
  | '"' => ['\\', '"']
  | c =>
    if isUnprintable c then ['\\', 'u', '\x7b'] ++ hex 1 c.toNat ++ ['\x7d'] else [c]

/-- A text in double quotes. -/
def quoted (s : String) : String :=
  String.ofList ('"' :: s.toList.flatMap quoteChar ++ ['"'])

end CrashCourier.Text
