import CrashCourier.Mismatch

/-!
# Why a JSON text is refused

A reader stops at the first fault, from left to right. A fault is a text that breaks off, one that
breaks the grammar, or one that is well-formed and holds a value that does not fit.
-/

namespace CrashCourier.Json

/-- The first thing that is wrong with a text. -/
inductive Fault where
  /-- The text ends where a value has to come. -/
  | endOfValue
  /-- The text ends inside a string. -/
  | endOfString
  /-- The text ends inside an array. -/
  | endOfList
  /-- The text ends inside an object. -/
  | endOfObject
  | expectedValue
  /-- A word begins like `null`, `true` or `false` and goes on otherwise. -/
  | expectedIdent
  | expectedColon
  | expectedCommaOrBrace
  | expectedCommaOrBracket
  | keyNotString
  | trailingComma
  | trailingCharacters
  | invalidEscape
  | invalidNumber
  | numberOutOfRange
  /-- A string is no UTF-8, or an escape stands for no character. -/
  | invalidCodePoint
  | controlCharacter
  | loneSurrogate
  /-- The escape of a second half has to follow. -/
  | unexpectedEndOfHexEscape
  /-- Arrays and objects are nested too deep. -/
  | tooDeep
  /-- A value does not fit. -/
  | mismatch (m : Mismatch)
  deriving DecidableEq

namespace Fault

def message : Fault → String
  | endOfValue => "EOF while parsing a value"
  | endOfString => "EOF while parsing a string"
  | endOfList => "EOF while parsing a list"
  | endOfObject => "EOF while parsing an object"
  | expectedValue => "expected value"
  | expectedIdent => "expected ident"
  | expectedColon => "expected `:`"
  | expectedCommaOrBrace => "expected `,` or `\x7d`"
  | expectedCommaOrBracket => "expected `,` or `]`"
  | keyNotString => "key must be a string"
  | trailingComma => "trailing comma"
  | trailingCharacters => "trailing characters"
  | invalidEscape => "invalid escape"
  | invalidNumber => "invalid number"
  | numberOutOfRange => "number out of range"
  | invalidCodePoint => "invalid unicode code point"
  | controlCharacter => "control character (\\u0000-\\u001F) found while parsing a string"
  | loneSurrogate => "lone leading surrogate in hex escape"
  | unexpectedEndOfHexEscape => "unexpected end of hex escape"
  | tooDeep => "recursion limit exceeded"
  | mismatch m => m.message .json

/-- The three classes of faults. -/
inductive Category where
  /-- The text breaks off. -/
  | eof
  /-- The text breaks the grammar. -/
  | grammar
  /-- The text holds a value that does not fit. -/
  | data
  deriving DecidableEq

/-- The class of a fault. -/
def category : Fault → Category
  | endOfValue | endOfString | endOfList | endOfObject => .eof
  | mismatch _ => .data
  | _ => .grammar

/-- The name of a class. -/
def Category.name : Category → String
  | eof => "eof"
  | grammar => "syntax"
  | data => "data"

end Fault

end CrashCourier.Json
