import CrashCourier.Decimal.Layout
import CrashCourier.Text.Quoted

/-!
# Values of the wrong kind

A reader that wants one kind of value and meets another says both. The phrases are shared by all
the formats that settings and records are read from; a dialect holds the few words that differ.
-/

namespace CrashCourier

/-- What a reader met. -/
inductive Found where
  /-- No value: `null`. -/
  | nothing
  | truth (b : Bool)
  | whole (n : Int)
  /-- A whole number beyond 64 bits. -/
  | wide (n : Int)
  | real (x : Binary64)
  | infinite (negative : Bool)
  | notANumber
  | text (s : String)
  | list
  | table
  deriving DecidableEq

/-- What a reader wanted. -/
inductive Wanted where
  | text
  | natural
  | integer
  | real
  | truth
  | list
  | table
  | record (name : String)
  /-- The path of a file. -/
  | path
  /-- The name of a record's member. -/
  | field
  /-- No value. -/
  | nothing
  /-- One of a few names. -/
  | variant
  /-- A name, or an object whose only key is the name. -/
  | variantOrTable
  /-- An object with one key. -/
  | singleKey
  /-- A value that its tag marks as one of a few names. -/
  | tag
  /-- A value of the kind that its tag announces. -/
  | taggedTruth
  | taggedWhole
  | taggedReal
  | taggedNothing
  deriving DecidableEq

/-- The words in which a format describes what it met. -/
structure Dialect where
  /-- The word for no value. -/
  nothing : String
  /-- How numbers with a fraction are written. -/
  layout : Decimal.Layout

/-- JSON says `null`, and writes numbers as it writes them in documents. -/
def Dialect.json : Dialect := ⟨"null", .json⟩

/-- Settings files say `unit value`, and write numbers with all their places. -/
def Dialect.settings : Dialect := ⟨"unit value", .full⟩

/-- Describes what was met. -/
def Found.phrase (d : Dialect) : Found → String
  | .nothing => d.nothing
  | .truth b => "boolean `" ++ (if b then "true" else "false") ++ "`"
  | .whole n => "integer `" ++ toString n ++ "`"
  | .wide n => "integer `" ++ toString n ++ "` as " ++ (if n < 0 then "i128" else "u128")
  | .real x => "floating point `" ++ d.layout.text x ++ "`"
  | .infinite negative => "floating point `" ++ (if negative then "-inf" else "inf") ++ "`"
  | .notANumber => "floating point `NaN`"
  | .text s => "string " ++ Text.quoted s
  | .list => "sequence"
  | .table => "map"

/-- Describes what was wanted. -/
def Wanted.phrase : Wanted → String
  | .text => "a string"
  | .natural => "u64"
  | .integer => "i64"
  | .real => "f64"
  | .truth => "a boolean"
  | .list => "a sequence"
  | .table => "a map"
  | .record name => "struct " ++ name
  | .path => "path string"
  | .field => "field identifier"
  | .nothing => "unit"
  | .variant => "variant identifier"
  | .variantOrTable => "string or map"
  | .singleKey => "map with a single key"
  | .tag => "a YAML tag starting with '!'"
  | .taggedTruth => "a boolean"
  | .taggedWhole => "an integer"
  | .taggedReal => "a float"
  | .taggedNothing => "null"

/-- A value that does not fit where it stands. -/
inductive Mismatch where
  /-- The value is of another kind. -/
  | type (found : Found) (wanted : Wanted)
  /-- The value is of the kind wanted and out of its range. -/
  | value (found : Found) (wanted : Wanted)
  /-- A member comes a second time. -/
  | repeated (field : String)
  /-- A member does not come at all. -/
  | missing (field : String)
  /-- A name is none of those known. -/
  | variant (name : String) (known : List String)
  deriving DecidableEq

def Mismatch.message (d : Dialect) : Mismatch → String
  | .type found wanted => "invalid type: " ++ found.phrase d ++ ", expected " ++ wanted.phrase
  | .value found wanted => "invalid value: " ++ found.phrase d ++ ", expected " ++ wanted.phrase
  | .repeated field => "duplicate field `" ++ field ++ "`"
  | .missing field => "missing field `" ++ field ++ "`"
  | .variant name known =>
    "unknown variant `" ++ name ++ "`, expected one of " ++
      ", ".intercalate (known.map fun k => "`" ++ k ++ "`")

end CrashCourier
