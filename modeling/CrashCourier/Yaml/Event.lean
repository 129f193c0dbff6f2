import CrashCourier.Yaml.Token

/-!
# From tokens to nodes

The nodes of a text, one after the other, a collection as its begin, its items and its end. What may
come next depends on where in which collection the text stands; `Expect` lists those places, and
`Walk.step` goes from one to the next and gives one event. A node that is not written is an empty
plain scalar.
-/

namespace CrashCourier.Yaml

/-- What a node may carry. -/
structure Marks where
  anchor : Option String
  tag : Option String
  deriving DecidableEq

def Marks.none : Marks := ⟨.none, .none⟩

/-- A node, or the begin or the end of a collection, a document or the text. -/
inductive Event where
  | streamEnd
  | documentStart
  | documentEnd
  | alias (name : String)
  | scalar (text : String) (style : Style) (marks : Marks)
  | sequenceStart (marks : Marks)
  | sequenceEnd
  | mappingStart (marks : Marks)
  | mappingEnd
  deriving DecidableEq

/-- A node that is not written. -/
def Event.empty : Event := .scalar "" .plain .none

/-- What comes next in a text. -/
inductive Expect where
  /-- The first document, which needs no mark of its beginning. -/
  | firstDocument
  /-- A document after another. -/
  | nextDocument
  | documentContent
  | documentEnd
  | blockNode
  | blockSequenceFirst
  | blockSequenceEntry
  /-- An item of a sequence that is no further in than the mapping around it. -/
  | indentlessEntry
  | blockMappingFirst
  | blockMappingKey
  | blockMappingValue
  | flowSequenceFirst
  | flowSequenceEntry
  /-- The key of a mapping of one pair, written as an item of a sequence in brackets. -/
  | pairKey
  | pairValue
  | pairEnd
  | flowMappingFirst
  | flowMappingKey
  | flowMappingValue
  /-- The value of a key without a colon. -/
  | flowMappingNoValue
  | nothing
  deriving DecidableEq

/-- Where in a text the walk stands. -/
structure Walk where
  expect : Expect
  /-- What comes after the collections that are open. -/
  after : List Expect
  /-- What the handles of tags stand for in this document. -/
  handles : List (String × String)

namespace Walk

/-- A step: the event, the walk after it, and the tokens that are left. -/
abbrev Step := Option (Event × Walk × List Token)

/-- At the beginning of a text. -/
def start : Walk := ⟨.firstDocument, [], []⟩

/-- Goes on to another place. -/
def goTo (w : Walk) (expect : Expect) : Walk :=
  { w with expect }

/-- Has another place come after the next node. -/
def thenAt (w : Walk) (expect : Expect) : Walk :=
  { w with after := expect :: w.after }

/-- Goes on after a node. -/
def done (w : Walk) : Walk :=
  match w.after with
  | [] => { w with expect := .nothing }
  | expect :: after => { w with expect, after }

/-! ## Nodes -/

/-- Takes the anchor and the tag in front of a node, in either order. -/
def takeMarks : List Token → (Option String × Option (String × String)) × List Token
  | .anchor a :: .tag h s :: rest => ((some a, some (h, s)), rest)
  | .tag h s :: .anchor a :: rest => ((some a, some (h, s)), rest)
  | .anchor a :: rest => ((some a, none), rest)
  | .tag h s :: rest => ((none, some (h, s)), rest)
  | ts => ((none, none), ts)

/-- What a tag stands for: its suffix if the handle is empty, else the suffix after what the handle
stands for. -/
def tagText? (w : Walk) : String × String → Option String
  | ("", suffix) => some suffix
  | (handle, suffix) => (w.handles.lookup handle).map (· ++ suffix)

/-- Gives a node. `block` says that it may be a block, `indentless` that it may be a sequence no
further in than the mapping around it. -/
def node (w : Walk) (block indentless : Bool) (ts : List Token) : Step :=
  match ts with
  | .alias name :: rest => some (.alias name, w.done, rest)
  | _ => do
    let ((anchor, tag), ts) := takeMarks ts
    let tag ← match tag with
      | none => some none
      | some t => (w.tagText? t).map some
    let marks : Marks := ⟨anchor, tag⟩
    match ts with
    | [] => none
    | .blockEntry :: _ =>
      if indentless then some (.sequenceStart marks, w.goTo .indentlessEntry, ts)
      else if marks = .none then none
      else some (.scalar "" .plain marks, w.done, ts)
    | .scalar text style :: rest =>
      some (.scalar text style { marks with tag := tag.filter (· ≠ "!") }, w.done, rest)
    | .flowSequenceStart :: _ => some (.sequenceStart marks, w.goTo .flowSequenceFirst, ts)
    | .flowMappingStart :: _ => some (.mappingStart marks, w.goTo .flowMappingFirst, ts)
    | t :: _ =>
      if block && t == .blockSequenceStart then
        some (.sequenceStart marks, w.goTo .blockSequenceFirst, ts)
      else if block && t == .blockMappingStart then
        some (.mappingStart marks, w.goTo .blockMappingFirst, ts)
      else if marks = .none then none
      else some (.scalar "" .plain marks, w.done, ts)

/-- Gives the node in front of one of the tokens `ends`, after which `expect` comes: an empty one if
nothing is in front of it. -/
def nodeBefore (w : Walk) (ends : List Token) (expect : Expect) (block indentless : Bool)
    (ts : List Token) : Step :=
  match ts with
  | [] => none
  | t :: _ =>
    if ends.contains t then some (.empty, w.goTo expect, ts)
    else (w.thenAt expect).node block indentless ts

/-! ## Documents -/

/-- Takes the directives of a document: at most one version, which is 1.1 or 1.2, and at most one
meaning for each handle. -/
def takeDirectives : (version : Bool) → List (String × String) → List Token →
    Option (List (String × String) × List Token)
  | version, handles, .version major minor :: rest =>
    if version ∨ major ≠ 1 ∨ (minor ≠ 1 ∧ minor ≠ 2) then none
    else takeDirectives true handles rest
  | version, handles, .tagDirective handle stands :: rest =>
    if (handles.lookup handle).isSome then none
    else takeDirectives version (handles ++ [(handle, stands)]) rest
  | _, handles, ts => some (handles, ts)

/-- What handles stand for unless a document says otherwise. -/
def usualHandles : List (String × String) := [("!", "!"), ("!!", "tag:yaml.org,2002:")]

/-- Whether a token belongs to the beginning of a document that is marked. -/
def beginsDocument : Token → Bool
  | .version .. | .tagDirective .. | .documentStart => true
  | _ => false

/-- Gives the beginning of a document that is marked. -/
def markedDocument (w : Walk) (ts : List Token) : Step := do
  let (handles, ts) ← takeDirectives false [] ts
  match ts with
  | .documentStart :: rest =>
    some (.documentStart,
      { w with expect := .documentContent, after := .documentEnd :: w.after,
               handles := handles ++ usualHandles }, rest)
  | _ => none

/-- Gives the beginning of a document, or the end of the text. -/
def document (w : Walk) (first : Bool) (ts : List Token) : Step :=
  let ts := if first then ts else ts.dropWhile (· == .documentEnd)
  match ts with
  | [] => none
  | .streamEnd :: rest => some (.streamEnd, w.goTo .nothing, rest)
  | t :: _ =>
    if first ∧ !beginsDocument t then
      some (.documentStart,
        { w with expect := .blockNode, after := .documentEnd :: w.after,
                 handles := usualHandles }, ts)
    else w.markedDocument ts

/-! ## One step -/

/-- Gives the next event. -/
def step (w : Walk) (ts : List Token) : Step :=
  match w.expect, ts with
  | _, [] => none
  | .nothing, _ => none
  | .firstDocument, ts => w.document true ts
  | .nextDocument, ts => w.document false ts
  | .documentContent, t :: _ =>
    if beginsDocument t || t == .documentEnd || t == .streamEnd then some (.empty, w.done, ts)
    else w.node true false ts
  | .documentEnd, t :: rest =>
    some (.documentEnd, { w with expect := .nextDocument, handles := [] },
      if t = .documentEnd then rest else ts)
  | .blockNode, ts => w.node true false ts
  | .blockSequenceFirst, _ :: rest => entry w .blockSequenceEntry rest
  | .blockSequenceEntry, ts => entry w .blockSequenceEntry ts
  | .indentlessEntry, .blockEntry :: rest =>
    w.nodeBefore [.blockEntry, .key, .value, .blockEnd] .indentlessEntry true false rest
  | .indentlessEntry, ts => some (.sequenceEnd, w.done, ts)
  | .blockMappingFirst, _ :: rest => blockKey w rest
  | .blockMappingKey, ts => blockKey w ts
  | .blockMappingValue, .value :: rest =>
    w.nodeBefore [.key, .value, .blockEnd] .blockMappingKey true true rest
  | .blockMappingValue, ts => some (.empty, w.goTo .blockMappingKey, ts)
  | .flowSequenceFirst, _ :: rest => flowItem w rest
  | .flowSequenceEntry, .flowEntry :: rest => flowItem w rest
  | .flowSequenceEntry, .flowSequenceEnd :: rest => some (.sequenceEnd, w.done, rest)
  | .flowSequenceEntry, _ => none
  | .pairKey, t :: rest =>
    if t == .value || t == .flowEntry || t == .flowSequenceEnd then
      some (.empty, w.goTo .pairValue, rest)
    else (w.thenAt .pairValue).node false false ts
  | .pairValue, .value :: rest =>
    w.nodeBefore [.flowEntry, .flowSequenceEnd] .pairEnd false false rest
  | .pairValue, ts => some (.empty, w.goTo .pairEnd, ts)
  | .pairEnd, ts => some (.mappingEnd, w.goTo .flowSequenceEntry, ts)
  | .flowMappingFirst, _ :: rest => flowKey w rest
  | .flowMappingKey, .flowEntry :: rest => flowKey w rest
  | .flowMappingKey, .flowMappingEnd :: rest => some (.mappingEnd, w.done, rest)
  | .flowMappingKey, _ => none
  | .flowMappingValue, .value :: rest =>
    w.nodeBefore [.flowEntry, .flowMappingEnd] .flowMappingKey false false rest
  | .flowMappingValue, ts => some (.empty, w.goTo .flowMappingKey, ts)
  | .flowMappingNoValue, ts => some (.empty, w.goTo .flowMappingKey, ts)
where
  /-- An item of a block sequence, or its end. -/
  entry (w : Walk) (here : Expect) : List Token → Step
    | .blockEntry :: rest => w.nodeBefore [.blockEntry, .blockEnd] here true false rest
    | .blockEnd :: rest => some (.sequenceEnd, w.done, rest)
    | _ => none
  /-- A key of a block mapping, or its end. -/
  blockKey (w : Walk) : List Token → Step
    | .key :: rest =>
      w.nodeBefore [.key, .value, .blockEnd] .blockMappingValue true true rest
    | .blockEnd :: rest => some (.mappingEnd, w.done, rest)
    | _ => none
  /-- An item of a sequence in brackets, or its end. -/
  flowItem (w : Walk) : List Token → Step
    | [] => none
    | .key :: rest => some (.mappingStart .none, w.goTo .pairKey, rest)
    | .flowSequenceEnd :: rest => some (.sequenceEnd, w.done, rest)
    | ts => (w.thenAt .flowSequenceEntry).node false false ts
  /-- A key of a mapping in braces, or its end. -/
  flowKey (w : Walk) : List Token → Step
    | [] => none
    | .key :: rest =>
      w.nodeBefore [.value, .flowEntry, .flowMappingEnd] .flowMappingValue false false rest
    | .flowMappingEnd :: rest => some (.mappingEnd, w.done, rest)
    | ts => (w.thenAt .flowMappingNoValue).node false false ts

/-- The events of a text, up to its end or the first fault. -/
def events : (fuel : Nat) → Walk → List Token → List Event
  | 0, _, _ => []
  | fuel + 1, w, ts =>
    match w.step ts with
    | none => []
    | some (e, w, ts) => e :: events fuel w ts

end Walk

/-- The events of a text, up to its end or the first fault; the end is an event of its own. A token
gives rise to four events at most. -/
def eventsOf (tokens : List Token) : List Event :=
  Walk.events (4 * tokens.length + 4) .start (tokens.dropWhile (· == .streamStart))

end CrashCourier.Yaml
