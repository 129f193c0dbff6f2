/-!
# Paths

A path is the text of a file's place: names with slashes between them, from the root if the text
begins with a slash, else from the working directory. Joining works on the text; `Path.ofText`
takes a text apart. A name `.` leads nowhere and is dropped, a name `..` stays.
-/

namespace CrashCourier.Files

/-- Whether a path begins at the root. -/
def isAbsolute (path : String) : Bool :=
  path.toList.head? == some '/'

/-- The path of `name` in the directory `base`. A name that begins at the root is a path itself. -/
def join (base name : String) : String :=
  if isAbsolute name ∨ base.isEmpty then name
  else if base.toList.getLast? = some '/' then base ++ name
  else base ++ "/" ++ name

/-- A path taken apart. -/
structure Path where
  /-- Whether it begins at the root. -/
  absolute : Bool
  /-- The names to follow. -/
  names : List String
  deriving DecidableEq

/-- Takes the text of a path apart. -/
def Path.ofText (text : String) : Path :=
  ⟨isAbsolute text,
    ((text.toList.splitOn '/').map String.ofList).filter fun name => name ≠ "" && name ≠ "."⟩

/-- Whether the text of a path says that it leads to a directory. -/
def saysDirectory (text : String) : Bool :=
  match (text.toList.splitOn '/').getLast? with
  | some last => last == [] || last == ['.'] || last == ['.', '.']
  | none => true

def Path.text (p : Path) : String :=
  (if p.absolute then "/" else "") ++ "/".intercalate p.names

/-- The path without its last name; `none` at the root. -/
def Path.parent? (p : Path) : Option Path :=
  if p.absolute ∧ p.names = [] then none else some { p with names := p.names.dropLast }

end CrashCourier.Files
