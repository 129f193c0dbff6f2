import CrashCourier.Text.Hex
import CrashCourier.Yaml.Cursor

/-!
# Scalars

The three ways to write a text: in quotes, plain, and as a block of lines. In the first two a single
end of line stands for a space and each further one for itself; in a block that depends on its
header.
-/

namespace CrashCourier.Yaml

/-! ## Ends of lines inside a scalar -/

/-- The blanks and ends of lines between two words of a scalar. -/
structure Gap where
  /-- Whether a line has ended. -/
  broken : Bool
  /-- The blanks, as long as no line has ended. -/
  blanks : List Char
  /-- The first end of a line. -/
  first : List Char
  /-- The ends of lines after it. -/
  more : List Char

def Gap.none : Gap := ⟨false, [], [], []⟩

/-- What a gap stands for. -/
def Gap.joined (g : Gap) : List Char :=
  if g.broken then
    if g.first = ['\n'] then (if g.more = [] then [' '] else g.more) else g.first ++ g.more
  else g.blanks

namespace Scan

/-- Takes a gap on from one that has begun. In a plain scalar, a tab must not stand in the
indentation of a line, which goes up to the column `indent`. -/
def gap (indent : Option Nat) (g : Gap) : Scan Gap :=
  repeated (fun (g : Gap) => do
    match ← peek 0 with
    | some c =>
      if isBlank c then
        if g.broken && c == '\t' && indent.any ((← column) < ·) then failure
        skip 1
        return .inl (if g.broken then g else { g with blanks := g.blanks ++ [c] })
      else if isBreak c then
        let b ← takeBreak
        return .inl (if g.broken then { g with more := g.more ++ b } else ⟨true, [], b, []⟩)
      else return .inr g
    | none => return .inr g) g

/-! ## Quoted scalars -/

/-- What a character stands for after a backslash. -/
def escaped? : Char → Option Char
  | '0' => some '\x00'
  | 'a' => some '\x07'
  | 'b' => some '\x08'
  | 't' | '\t' => some '\t'
  | 'n' => some '\n'
  | 'v' => some '\x0B'
  | 'f' => some '\x0C'
  | 'r' => some '\r'
  | 'e' => some '\x1B'
  | ' ' => some ' '
  | '"' => some '"'
  | '/' => some '/'
  | '\\' => some '\\'
  | 'N' => some '\u0085'
  | '_' => some '\u00A0'
  | 'L' => some '\u2028'
  | 'P' => some '\u2029'
  | _ => none

/-- How many hexadecimal digits follow a letter after a backslash. -/
def escapeLength? : Char → Option Nat
  | 'x' => some 2
  | 'u' => some 4
  | 'U' => some 8
  | _ => none

/-- Takes the escape of a character, the backslash included. -/
def escape : Scan Char := do
  let some c ← peek 1 | failure
  skip 2
  match escaped? c, escapeLength? c with
  | some e, _ => return e
  | none, some n =>
    let digits := (← get).ahead.take n
    let some value := Text.ofHex? digits | failure
    if digits.length ≠ n ∨ (0xD800 ≤ value ∧ value ≤ 0xDFFF) ∨ 0x10FFFF < value then failure
    skip n
    return Char.ofNat value
  | none, none => failure

/-- Takes the characters of a quoted scalar up to a gap or the closing quote: the characters, and
whether the line was continued with a backslash. -/
def quotedWord (quote : Char) : Scan (List Char × Bool) := do
  let single := quote == '\''
  repeated (fun (taken : List Char) => do
    match ← peek 0 with
    | none => return .inr (taken.reverse, false)
    | some c =>
      if isBlank c || isBreak c then return .inr (taken.reverse, false)
      else if single && c == '\'' && (← peek 1) == some '\'' then
        skip 2
        return .inl ('\'' :: taken)
      else if c == quote then return .inr (taken.reverse, false)
      else if !single && c == '\\' && (← peek 1).any isBreak then
        skip 1
        let _ ← takeBreak
        return .inr (taken.reverse, true)
      else if !single && c == '\\' then return .inl ((← escape) :: taken)
      else
        skip 1
        return .inl (c :: taken)) []

/-- Takes a quoted scalar, its opening quote ahead. -/
def quoted (quote : Char) : Scan String := do
  skip 1
  let text ← repeated (fun (taken : List Char) => do
    if (← atDocumentMark '-') || (← atDocumentMark '.') then failure
    if (← peek 0).isNone then failure
    let (word, continued) ← quotedWord quote
    if ← sees quote then return .inr (taken ++ word)
    let g ← gap none { Gap.none with broken := continued }
    return .inl (taken ++ word ++ g.joined)) []
  skip 1
  return String.ofList text

/-! ## Plain scalars -/

/-- Whether a character brackets a collection that is written in brackets or braces. -/
def isBracket (c : Char) : Bool :=
  c == '[' || c == ']' || c == '{' || c == '}'

/-- Takes the characters of a plain scalar up to a gap or an indicator. `inFlow` says that the
scalar stands in brackets or braces. -/
def plainWord (inFlow : Bool) : Scan (List Char) :=
  repeated (fun (taken : List Char) => do
    match ← peek 0 with
    | none => return .inr taken.reverse
    | some c =>
      let next ← peek 1
      if isBlank c || isBreak c then return .inr taken.reverse
      else if inFlow && c == ':' && next.any (fun n => n == ',' || n == '?' || isBracket n) then
        failure
      else if c == ':' && endsWord next || inFlow && (c == ',' || isBracket c) then
        return .inr taken.reverse
      else
        skip 1
        return .inl (c :: taken)) []

/-- Takes a plain scalar. It goes on in the next line if that is indented up to the column `indent`
or the scalar stands in brackets or braces. Answers also whether the scalar has ended a line. -/
def plain (inFlow : Bool) (indent : Nat) : Scan (String × Bool) := do
  let (text, broken) ← repeated (fun (taken, g) => do
    if (← atDocumentMark '-') || (← atDocumentMark '.') || (← sees '#') then
      return .inr (taken, g.broken)
    let word ← plainWord inFlow
    let (taken, g) := if word = [] then (taken, g) else (taken ++ g.joined ++ word, Gap.none)
    if !(← peek 0).any (fun c => isBlank c || isBreak c) then return .inr (taken, g.broken)
    let g ← gap (some indent) g
    if !inFlow && (← column) < indent then return .inr (taken, g.broken)
    return .inl (taken, g)) (([] : List Char), Gap.none)
  return (String.ofList text, broken)

/-! ## Block scalars -/

/-- Which ends of lines at the end of a block count. -/
inductive Chomping where
  /-- None. -/
  | strip
  /-- The first one. -/
  | clip
  /-- All. -/
  | keep
  deriving DecidableEq

/-- Takes what the header of a block says about its end. -/
def chomping : Scan Chomping := do
  match ← peek 0 with
  | some '+' =>
    skip 1
    return .keep
  | some '-' =>
    skip 1
    return .strip
  | _ => return .clip

/-- Takes the digit of the header of a block that says how far the block is indented. -/
def indentation : Scan (Option Nat) := do
  match ← peek 0 with
  | some c =>
    if c.isDigit then
      if c = '0' then failure
      skip 1
      return some (c.toNat - 48)
    else return none
  | none => return none

/-- Takes indentation and empty lines in front of a line of a block: the ends of the empty lines,
and the widest indentation. The block is indented up to the column `indent`, or, before that is
known, as far as there are spaces. -/
def blockBreaks (indent : Option Nat) : Scan (List Char × Nat) :=
  repeated (fun (breaks, widest) => do
    let within (column : Nat) : Bool := indent.all (column < ·)
    let c ← get
    let spaces := (c.ahead.takeWhile (· == ' ')).length
    skip (match indent with
      | some n => min spaces (n - c.column)
      | none => spaces)
    let column ← column
    let widest := max widest column
    if within column && (← sees '\t') then failure
    if (← peek 0).any isBreak then return .inl (breaks ++ (← takeBreak), widest)
    return .inr (breaks, widest)) (([] : List Char), 0)

/-- Takes a block scalar, the indicator of its style ahead. `parent` is the column of the block
around it, if there is one. -/
def block (literal : Bool) (parent : Option Nat) : Scan String := do
  skip 1
  let (chomp, increment) ← (do
    if (← sees '+') || (← sees '-') then
      let chomp ← chomping
      return (chomp, ← indentation)
    else
      let increment ← indentation
      return (← chomping, increment))
  endLine
  let given := increment.map fun n => parent.getD 0 + n
  let (breaks, widest) ← blockBreaks given
  let indent := given.getD (max widest (max (parent.elim 0 (· + 1)) 1))
  let (text, first, more) ← repeated (fun (taken, first, more, wasBlank) => do
    if (← column) ≠ indent || (← peek 0).isNone then return .inr (taken, first, more)
    -- lines that begin with a blank keep the ends of lines around them
    let blank := (← peek 0).any isBlank
    let folds := !literal && first = ['\n'] && !wasBlank && !blank
    let glue := if folds then (if more = [] then [' '] else []) else first
    let line ← takeWhile (!isBreak ·)
    let first ← takeBreak
    let (more', _) ← blockBreaks (some indent)
    return .inl (taken ++ glue ++ more ++ line, first, more', blank))
    (([] : List Char), ([] : List Char), breaks, false)
  return String.ofList (text ++ (if chomp = .strip then [] else first) ++
    (if chomp = .keep then more else []))

end Scan

end CrashCourier.Yaml
