/-!
# Reading a settings text

A scanner reads characters one after the other and keeps track of the line and the column. Most
rules of the format go by the next few characters, by the column, and by whether a character ends a
line. Nothing is said about a text that breaks the rules but that it does.
-/

namespace CrashCourier.Yaml

/-- A place in a text: what is ahead of it, and where it is. -/
structure Cursor where
  ahead : List Char
  /-- How many characters are behind. -/
  index : Nat
  /-- How many lines are behind. -/
  line : Nat
  /-- How many characters of the line are behind. -/
  column : Nat

/-- Takes something off a text, unless the text breaks the rules. -/
abbrev Scan := StateT Cursor Option

/-! ## Characters -/

/-- Whether a character ends a line. -/
def isBreak (c : Char) : Bool :=
  c == '\r' || c == '\n' || c == '\u0085' || c == '\u2028' || c == '\u2029'

/-- Whether a character stands between words of a line. -/
def isBlank (c : Char) : Bool :=
  c == ' ' || c == '\t'

/-- Whether a character may be part of the name of an anchor, a handle or a directive. -/
def isWord (c : Char) : Bool :=
  c.isAlphanum || c == '_' || c == '-'

def endsLine : Option Char → Bool
  | some c => isBreak c
  | none => true

def endsWord : Option Char → Bool
  | some c => isBlank c || isBreak c
  | none => true

/-- The place at the beginning of a text. -/
def Cursor.start (text : List Char) : Cursor := ⟨text, 0, 0, 0⟩

namespace Scan

/-- The character `n` places ahead. -/
def peek (n : Nat) : Scan (Option Char) := fun c =>
  some (c.ahead[n]?, c)

/-- Whether the next character is this one. -/
def sees (expected : Char) : Scan Bool := do
  return (← peek 0) == some expected

def column : Scan Nat := fun c => some (c.column, c)

/-- Takes characters of the line. -/
def skip (n : Nat) : Scan Unit := fun c =>
  some ((), { c with ahead := c.ahead.drop n, index := c.index + n, column := c.column + n })

/-- Takes the characters of the line that satisfy `p`, up to the first that does not. -/
def takeWhile (p : Char → Bool) : Scan (List Char) := fun c =>
  let taken := c.ahead.takeWhile p
  let n := taken.length
  some (taken, { c with ahead := c.ahead.drop n, index := c.index + n, column := c.column + n })

def skipBlanks : Scan Unit := do
  let _ ← takeWhile isBlank

/-- Takes the rest of the line if it is a comment. -/
def skipComment : Scan Unit := do
  if ← sees '#' then
    let _ ← takeWhile (!isBreak ·)

/-- Takes the end of a line and gives what it stands for: the separators of lines and paragraphs
stand for themselves, any other end for a line feed. Nothing is taken if the line goes on. -/
def takeBreak : Scan (List Char) := fun c =>
  let next (n : Nat) (rest : List Char) : Cursor := ⟨rest, c.index + n, c.line + 1, 0⟩
  match c.ahead with
  | '\r' :: '\n' :: rest => some (['\n'], next 2 rest)
  | '\u2028' :: rest => some (['\u2028'], next 1 rest)
  | '\u2029' :: rest => some (['\u2029'], next 1 rest)
  | b :: rest => if isBreak b then some (['\n'], next 1 rest) else some ([], c)
  | [] => some ([], c)

/-- Takes steps until one gives a result, at most one more than there are characters in `fuel`. -/
def loop {σ α : Type} (step : σ → Scan (σ ⊕ α)) : (fuel : List Char) → σ → Scan α
  | [], s => do
    match ← step s with
    | .inl _ => failure
    | .inr a => pure a
  | _ :: fuel, s => do
    match ← step s with
    | .inl s' => loop step fuel s'
    | .inr a => pure a

/-- Takes steps until one gives a result; each but the last takes a character or more. -/
def repeated {σ α : Type} (step : σ → Scan (σ ⊕ α)) (s : σ) : Scan α := fun c =>
  loop step c.ahead s c

/-- The rest of the line may hold a comment and nothing else. Takes it, and its end. -/
def endLine : Scan Unit := do
  skipBlanks
  skipComment
  if !endsLine (← peek 0) then failure
  let _ ← takeBreak

/-- Whether the line begins with three characters that begin or end a document. -/
def atDocumentMark (mark : Char) : Scan Bool := do
  return (← column) == 0 && (← peek 0) == some mark && (← peek 1) == some mark &&
    (← peek 2) == some mark && endsWord (← peek 3)

end Scan

end CrashCourier.Yaml
