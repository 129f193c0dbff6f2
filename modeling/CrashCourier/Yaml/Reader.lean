import CrashCourier.Yaml.Document
import CrashCourier.Yaml.Plain

/-!
# Reading settings from a document

A reader takes a value off the nodes ahead. A fault is either one of the text, of which nothing more
is said, or a value that does not fit, with the path of names that leads to it.
-/

namespace CrashCourier.Yaml

/-- The names that lead to a value; `none` stands for a name that is not written where it counts. -/
abbrev Path := List (Option String)

def Path.text (p : Path) : String :=
  ".".intercalate (p.map (·.getD "?"))

/-- Why settings cannot be read. -/
inductive Fault where
  /-- The text breaks the rules of the format. -/
  | broken
  /-- A value does not fit. -/
  | mismatch (path : Path) (m : Mismatch)

/-- The text of a fault; there is none for a broken text. -/
def Fault.message? : Fault → Option String
  | broken => none
  | mismatch [] m => some (m.message .settings)
  | mismatch path m => some (path.text ++ ": " ++ m.message .settings)

/-- Takes a value off the nodes ahead. -/
abbrev Reader := StateT (List Piece) (Except Fault)

namespace Reader

/-- Reads the next node, or the one it stands for if it is an alias. -/
def onNode {α : Type} (d : Document) (reader : Reader α) : Reader α := fun pieces =>
  match pieces with
  | .alias anchor :: rest => (reader (d.fromAnchor anchor)).map fun (a, _) => (a, rest)
  | _ => reader pieces

def next : Reader Piece := fun pieces =>
  match pieces with
  | [] => .error .broken
  | piece :: rest => .ok (piece, rest)

/-- The next piece; nothing is taken. -/
def peek : Reader Piece := fun pieces =>
  (next pieces).map fun (piece, _) => (piece, pieces)

/-- The fault that a piece is not what is wanted. -/
def unexpected (path : Path) (wanted : Wanted) : Piece → Fault
  | .scalar text style tag =>
    match scalarFound text style tag with
    | .ok found => .mismatch path (.type found wanted)
    | .error m => .mismatch path m
  | .sequenceStart _ => .mismatch path (.type .list wanted)
  | .mappingStart _ => .mismatch path (.type .table wanted)
  | _ => .broken

/-- Takes the text of a scalar, however it is written. -/
def text (d : Document) (path : Path) (wanted : Wanted) : Reader String :=
  onNode d do
    match ← next with
    | .scalar text _ _ => return text
    | piece => throw (unexpected path wanted piece)

/-- Takes a natural number of 64 bits: a plain scalar, or a literal one with the tag of whole
numbers. -/
def natural (d : Document) (path : Path) : Reader UInt64 :=
  onNode d do
    let piece ← next
    match piece with
    | .scalar text style tag =>
      let tagged := style = .literal ∧ tag = some "tag:yaml.org,2002:int"
      let number :=
        if style = .plain ∨ tagged then natural? 0xFFFFFFFFFFFFFFFF text.toList else none
      match number with
      | some n => return UInt64.ofNat n
      | none => throw (unexpected path .natural piece)
    | piece => throw (unexpected path .natural piece)

/-- Takes nothing: a plain scalar that is empty or a name for no value. -/
def nothing (d : Document) (path : Path) : Reader Unit :=
  onNode d do
    match ← next with
    | .nothing => return ()
    | .scalar text style tag =>
      if style = .plain ∧ (text.isEmpty ∨ isNull text) then return ()
      else throw (unexpected path .nothing (.scalar text style tag))
    | piece => throw (unexpected path .nothing piece)

/-- Drops pieces up to the end of `depth` collections, or one node if there are none. -/
def dropNode : (depth : Nat) → List Piece → Except Fault (Unit × List Piece)
  | _, [] => .error .broken
  | depth, piece :: rest =>
    match piece with
    | .sequenceStart _ | .mappingStart _ => dropNode (depth + 1) rest
    | .sequenceEnd | .mappingEnd =>
      if depth ≤ 1 then .ok ((), rest) else dropNode (depth - 1) rest
    | _ => if depth = 0 then .ok ((), rest) else dropNode depth rest

/-- Takes a node that nobody wants. -/
def ignored : Reader Unit := dropNode 0

/-- Takes the entries of a mapping up to its end, at most `fuel` of them. `member` gets the name of
the entry for paths and its key. -/
def entries {σ : Type} (key : Reader String) (member : Option String → String → σ → Reader σ) :
    (fuel : Nat) → σ → Reader σ
  | 0, _ => throw .broken
  | fuel + 1, s => do
    match ← peek with
    | .mappingEnd =>
      let _ ← next
      return s
    | piece =>
      let name := match piece with
        | .scalar text _ _ => some text
        | _ => none
      let key' ← key
      entries key member fuel (← member name key' s)

/-- Takes a mapping. An empty plain scalar stands for one without entries. -/
def mapping {σ : Type} (d : Document) (path : Path) (wanted wantedKey : Wanted)
    (member : Option String → String → σ → Reader σ) (s : σ) : Reader σ :=
  onNode d do
    match ← next with
    | .nothing => return s
    | .mappingStart _ =>
      let fuel := (← get).length + 1
      entries (text d path wantedKey) member fuel s
    | .scalar text style tag =>
      if text.isEmpty ∧ style = .plain then return s
      else throw (unexpected path wanted (.scalar text style tag))
    | piece => throw (unexpected path wanted piece)

/-- Takes a value that has not come before. -/
def once {α : Type} (path : Path) (key : String) (before : Option α) (reader : Reader α) :
    Reader (Option α) :=
  match before with
  | some _ => throw (.mismatch path (.repeated key))
  | none => do return some (← reader)

end Reader

end CrashCourier.Yaml
