import CrashCourier.Yaml.Event
import CrashCourier.Yaml.Lexer

/-!
# Documents

The first document of a text, as far as it is without fault: its nodes in order, and for every alias
the node that it stands for. An anchor is known by how many names of anchors there were before it,
so that an alias may stand for a later node than the one that its name was given to.
-/

namespace CrashCourier.Yaml

/-- A node of a document, or the begin or the end of a collection. -/
inductive Piece where
  /-- The document has no node at all. -/
  | nothing
  /-- The node of an anchor. -/
  | alias (anchor : Nat)
  | scalar (text : String) (style : Style) (tag : Option String)
  | sequenceStart (tag : Option String)
  | sequenceEnd
  | mappingStart (tag : Option String)
  | mappingEnd

/-- The first document of a text. -/
structure Document where
  pieces : List Piece
  /-- The anchors, each with the number of pieces before its node. -/
  anchors : List (Nat × Nat)
  /-- Whether the document has come to its end without a fault. -/
  complete : Bool
  /-- Whether the text ends after the document. -/
  alone : Bool

namespace Document

/-- Whether a character may stand in a text. -/
def isAllowed (c : Char) : Bool :=
  let n := c.toNat
  n == 0x9 || n == 0xA || n == 0xD || (0x20 ≤ n && n ≤ 0x7E) || n == 0x85 ||
    (0xA0 ≤ n && n ≤ 0xD7FF) || (0xE000 ≤ n && n ≤ 0xFFFD) || 0x10000 ≤ n

/-- A document as far as it has been put together. -/
structure Partial where
  pieces : List Piece
  /-- The anchors by name. -/
  names : List (String × Nat)
  anchors : List (Nat × Nat)

/-- Adds a piece, which may be the node of an anchor. -/
def Partial.add (d : Partial) (anchor : Option String) (piece : Piece) : Partial :=
  match anchor with
  | none => { d with pieces := d.pieces ++ [piece] }
  | some name =>
    -- names are counted, not nodes: one that is given again counts once
    let number := d.names.length
    { pieces := d.pieces ++ [piece]
      names := (name, number) :: d.names.filter (·.1 ≠ name)
      anchors := (number, d.pieces.length) :: d.anchors }

/-- The document at a fault. -/
def Partial.broken (d : Partial) : Document :=
  ⟨d.pieces, d.anchors, false, false⟩

/-- Puts the first document together. -/
def collect (d : Partial) : List Event → Document
  | [] => d.broken
  | .streamEnd :: _ => ⟨[.nothing], [], true, true⟩
  | .documentStart :: rest => collect d rest
  | .documentEnd :: rest => ⟨d.pieces, d.anchors, true, rest.head? == some .streamEnd⟩
  | .alias name :: rest =>
    match d.names.lookup name with
    | some number => collect (d.add none (.alias number)) rest
    | none => d.broken
  | .scalar text style marks :: rest =>
    collect (d.add marks.anchor (.scalar text style marks.tag)) rest
  | .sequenceStart marks :: rest => collect (d.add marks.anchor (.sequenceStart marks.tag)) rest
  | .sequenceEnd :: rest => collect (d.add none .sequenceEnd) rest
  | .mappingStart marks :: rest => collect (d.add marks.anchor (.mappingStart marks.tag)) rest
  | .mappingEnd :: rest => collect (d.add none .mappingEnd) rest

/-- The text without the mark of its encoding, if it begins with one. -/
def withoutMark : List Char → List Char
  | '\uFEFF' :: rest => rest
  | text => text

/-- The first document of a text. -/
def ofText (text : List Char) : Document :=
  if text.all isAllowed then collect ⟨[], [], []⟩ (eventsOf (tokensOf (withoutMark text)).1)
  else ⟨[], [], false, false⟩

/-- The pieces from the node of an anchor on. -/
def fromAnchor (d : Document) (anchor : Nat) : List Piece :=
  d.pieces.drop ((d.anchors.lookup anchor).getD d.pieces.length)

end Document

end CrashCourier.Yaml
