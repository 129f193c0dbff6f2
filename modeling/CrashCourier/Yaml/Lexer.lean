import CrashCourier.Yaml.Scalar
import CrashCourier.Yaml.Tag

/-!
# From characters to tokens

A text is taken apart token by token. What stands before a colon is known to be a key only once the
colon comes, so the places where a key may have begun are remembered, one for each level of brackets
and braces, until the line has ended or the text has gone on too far. A token is given out once no
such place could still put a token in front of it. Blocks begin and end where the indentation
changes.
-/

namespace CrashCourier.Yaml

/-- A place where a key may have begun. -/
structure KeyPlace where
  /-- The number of the token that begins there. -/
  token : Nat
  /-- Whether nothing but a key can begin there. -/
  required : Bool
  index : Nat
  line : Nat
  column : Nat

/-- What a text has been taken apart into, and what is needed to go on. -/
structure Lexer where
  cursor : Cursor
  /-- Tokens that are not given out yet. -/
  queue : List Token
  /-- How many tokens have been given out. -/
  given : Nat
  /-- Whether the text has been taken apart to its end. -/
  ended : Bool
  /-- Whether a key may begin here. -/
  keyAllowed : Bool
  /-- The place where a key may have begun, for every level of brackets and braces, the innermost
  first; the last is for blocks. -/
  places : List (Option KeyPlace)
  /-- The column of the innermost block; `none` outside all blocks. -/
  indent : Option Nat
  /-- The columns of the blocks around it. -/
  outer : List (Option Nat)

namespace Lexer

/-- A lexer at the beginning of a text. -/
def start (text : List Char) : Lexer :=
  ⟨.start text, [.streamStart], 0, false, true, [none], none, []⟩

/-- Whether the text here stands in brackets or braces. -/
def inFlow (x : Lexer) : Bool :=
  1 < x.places.length

def nextToken (x : Lexer) : Nat :=
  x.given + x.queue.length

/-- Puts a token at the end of the queue. -/
def push (x : Lexer) (t : Token) : Lexer :=
  { x with queue := x.queue ++ [t] }

/-- Puts a token in front of the one with a number. -/
def insertAt (x : Lexer) (number : Nat) (t : Token) : Lexer :=
  let n := number - x.given
  { x with queue := x.queue.take n ++ t :: x.queue.drop n }

/-- Takes characters. -/
def scan {α : Type} (x : Lexer) (s : Scan α) : Option (α × Lexer) :=
  (s.run x.cursor).map fun (a, c) => (a, { x with cursor := c })

/-- Takes characters of the line. -/
def skip (x : Lexer) (n : Nat) : Lexer :=
  let c := x.cursor
  { x with cursor :=
      { c with ahead := c.ahead.drop n, index := c.index + n, column := c.column + n } }

/-! ## Keys -/

/-- How many characters a key may have. -/
def greatestKey : Nat := 1024

/-- Forgets the places that the text has gone too far from. One that is required is a fault. -/
def dropStale (x : Lexer) : Option Lexer := do
  let c := x.cursor
  let isStale (p : KeyPlace) : Bool := p.line < c.line || p.index + greatestKey < c.index
  if x.places.any fun p => p.any fun p => isStale p && p.required then none
  return { x with places := x.places.map fun p => p.filter (!isStale ·) }

/-- Forgets the place at the innermost level. -/
def dropPlace (x : Lexer) : Option Lexer :=
  match x.places with
  | [] => some x
  | p :: rest => if p.any (·.required) then none else some { x with places := none :: rest }

/-- Remembers that a key may begin here. -/
def savePlace (x : Lexer) : Option Lexer :=
  if x.keyAllowed then
    let c := x.cursor
    let required := !x.inFlow && x.indent == some c.column
    x.dropPlace.map fun y =>
      { y with places := some ⟨x.nextToken, required, c.index, c.line, c.column⟩ :: y.places.tail }
  else some x

/-! ## Blocks -/

/-- Begins a block at a column, if it is further in than the innermost block. The token that begins
it goes in front of the one with the number `place`. -/
def openBlock (x : Lexer) (column place : Nat) (t : Token) : Lexer :=
  if x.inFlow || x.indent.any (column ≤ ·) then x
  else { x with indent := some column, outer := x.indent :: x.outer }.insertAt place t

/-- Ends the blocks that are further in than a column; all blocks if there is none. -/
def closeBlocks (x : Lexer) (column : Option Nat) : Lexer :=
  if x.inFlow then x
  else
    let depth := x.indent :: x.outer
    let ended := depth.takeWhile fun indent =>
      indent.any fun n => column.all (· < n)
    match depth.drop ended.length with
    | [] => x
    | indent :: outer =>
      { x with indent, outer, queue := x.queue ++ ended.map fun _ => Token.blockEnd }

/-! ## One token -/

/-- Takes the blanks, comments and ends of lines in front of a token. -/
def toNextToken (x : Lexer) : Option Lexer := do
  let (allowed, x') ← x.scan <| Scan.repeated (fun (allowed : Bool) => do
    if (← Scan.peek 0) == some '\uFEFF' && (← get).index == 0 then Scan.skip 1
    let _ ← Scan.takeWhile fun c => c == ' ' || (x.inFlow || !allowed) && c == '\t'
    Scan.skipComment
    if (← Scan.peek 0).any isBreak then
      let _ ← Scan.takeBreak
      return .inl (allowed || !x.inFlow)
    return .inr allowed) x.keyAllowed
  return { x' with keyAllowed := allowed }

/-- Ends the text. -/
def end? (x : Lexer) : Option Lexer := do
  let c := x.cursor
  -- the end of the text ends its last line
  let c := if c.column = 0 then c else { c with column := 0, line := c.line + 1 }
  let x ← ({ x with cursor := c }.closeBlocks none).dropPlace
  return { x with keyAllowed := false, ended := true }.push .streamEnd

/-- Takes a mark of the beginning or the end of a document. -/
def documentMark (x : Lexer) (t : Token) : Option Lexer := do
  let x ← (x.closeBlocks none).dropPlace
  return ({ x with keyAllowed := false }.skip 3).push t

def directive (x : Lexer) : Option Lexer := do
  let x ← (x.closeBlocks none).dropPlace
  let (t, x) ← { x with keyAllowed := false }.scan Scan.directive
  return x.push t

/-- Takes an opening bracket or brace. -/
def openFlow (x : Lexer) (t : Token) : Option Lexer := do
  let x ← x.savePlace
  return ({ x with places := none :: x.places, keyAllowed := true }.skip 1).push t

/-- Takes a closing bracket or brace. -/
def closeFlow (x : Lexer) (t : Token) : Option Lexer := do
  let x ← x.dropPlace
  let places := if x.inFlow then x.places.tail else x.places
  return ({ x with places, keyAllowed := false }.skip 1).push t

/-- Takes a comma between items. -/
def flowEntry (x : Lexer) : Option Lexer := do
  let x ← x.dropPlace
  return ({ x with keyAllowed := true }.skip 1).push .flowEntry

/-- Begins a block here, where a key could begin. Inside brackets and braces nothing is begun. -/
def openBlockHere (x : Lexer) (t : Token) : Option Lexer :=
  if x.inFlow then some x
  else if x.keyAllowed then some (x.openBlock x.cursor.column x.nextToken t)
  else none

/-- Takes the dash of an item. -/
def blockEntry (x : Lexer) : Option Lexer := do
  let x ← (← x.openBlockHere .blockSequenceStart).dropPlace
  return ({ x with keyAllowed := true }.skip 1).push .blockEntry

/-- Takes the question mark of a key. -/
def key (x : Lexer) : Option Lexer := do
  let x ← (← x.openBlockHere .blockMappingStart).dropPlace
  return ({ x with keyAllowed := !x.inFlow }.skip 1).push .key

/-- Takes the colon of a value. If a key may have begun at this level, it has. -/
def value (x : Lexer) : Option Lexer := do
  match x.places with
  | some p :: rest =>
    let x := x.insertAt p.token .key
    -- the block goes in front of the key that begins it
    let x := x.openBlock p.column p.token .blockMappingStart
    return ({ x with places := none :: rest, keyAllowed := false }.skip 1).push .value
  | _ =>
    let x ← x.openBlockHere .blockMappingStart
    return ({ x with keyAllowed := !x.inFlow }.skip 1).push .value

/-- Takes a token that may begin a key and is followed by no other that may. -/
def keyPart (x : Lexer) (s : Scan Token) : Option Lexer := do
  let x ← x.savePlace
  let (t, x) ← { x with keyAllowed := false }.scan s
  return x.push t

def blockScalar (x : Lexer) (literal : Bool) : Option Lexer := do
  let x ← x.dropPlace
  let (text, x) ← { x with keyAllowed := true }.scan (Scan.block literal x.indent)
  return x.push (.scalar text (if literal then .literal else .folded))

/-- Takes a plain scalar. If it ends a line a key may begin after it. -/
def plainScalar (x : Lexer) : Option Lexer := do
  let x ← x.savePlace
  let ((text, broken), x) ←
    { x with keyAllowed := false }.scan (Scan.plain x.inFlow (x.indent.elim 0 (· + 1)))
  return { x with keyAllowed := x.keyAllowed || broken }.push (.scalar text .plain)

/-- Takes one more token off the text, with the blocks that end before it. -/
def fetch (x : Lexer) : Option Lexer := do
  let x ← (← x.toNextToken).dropStale
  let x := x.closeBlocks (some x.cursor.column)
  let column := x.cursor.column
  match x.cursor.ahead with
  | [] => x.end?
  | c :: rest =>
    let next := rest.head?
    let isMark := column = 0 ∧ next = some c ∧ rest[1]? = some c ∧ endsWord rest[2]?
    let indicates := x.inFlow || endsWord next
    match c with
    | '%' => if column = 0 then x.directive else none
    | '-' =>
      if isMark then x.documentMark .documentStart
      else if endsWord next then x.blockEntry
      else x.plainScalar
    | '.' => if isMark then x.documentMark .documentEnd else x.plainScalar
    | '[' => x.openFlow .flowSequenceStart
    | '{' => x.openFlow .flowMappingStart
    | ']' => x.closeFlow .flowSequenceEnd
    | '}' => x.closeFlow .flowMappingEnd
    | ',' => x.flowEntry
    | '?' => if indicates then x.key else x.plainScalar
    | ':' => if indicates then x.value else x.plainScalar
    | '*' => x.keyPart (do return .alias (← Scan.anchorName))
    | '&' => x.keyPart (do return .anchor (← Scan.anchorName))
    | '!' => x.keyPart (Scan.tag x.inFlow)
    | '|' => if x.inFlow then none else x.blockScalar true
    | '>' => if x.inFlow then none else x.blockScalar false
    | '\'' => x.keyPart (do return .scalar (← Scan.quoted '\'') .singleQuoted)
    | '"' => x.keyPart (do return .scalar (← Scan.quoted '"') .doubleQuoted)
    | '\t' | '#' | '@' | '\x60' => none
    | _ => x.plainScalar

/-- Whether the first token in the queue may be given out, once the places that the text has gone
too far from are forgotten. -/
def isReady (x : Lexer) : Bool :=
  !x.queue.isEmpty && x.places.all fun p => p.all (·.token ≠ x.given)

/-- Gives out the first token, or takes one more off the text; `none` at the end. -/
def step (x : Lexer) : Option (Option Token × Lexer) := do
  let x ← if x.queue.isEmpty then some x else x.dropStale
  if x.isReady then
    return (x.queue.head?, { x with queue := x.queue.tail, given := x.given + 1 })
  else return (none, ← x.fetch)

/-- The tokens of a text, up to its end or the first fault, and whether there is no fault. -/
def tokens : (fuel : Nat) → Lexer → List Token × Bool
  | 0, _ => ([], false)
  | fuel + 1, x =>
    if x.ended && x.queue.isEmpty then ([], true)
    else
      match x.step with
      | none => ([], false)
      | some (none, x) => tokens fuel x
      | some (some t, x) =>
        let (ts, complete) := tokens fuel x
        (t :: ts, complete)

end Lexer

/-- The tokens of a text, up to its end or the first fault, and whether there is no fault. Each
character begins at most one token, which begins and ends at most one block each. -/
def tokensOf (text : List Char) : List Token × Bool :=
  Lexer.tokens (8 * (text.length + 4)) (.start text)

end CrashCourier.Yaml
