import CrashCourier.Json.Document
import CrashCourier.Json.Writer
import CrashCourier.Table

/-!
# Records of a fixed shape

A shape says which members a record names and what each of them holds. One reader, one writer and
one equality serve every shape; each goes by recursion on it.

The reader takes the members of a record in any order. A member that the shape does not name is
kept as it is; one that it names comes at most once, and has to come unless it is optional. The
writer puts the named members first, in the order of the shape, and leaves out the optional ones
that hold nothing.
-/

namespace CrashCourier.Json

/-- Whether a record needs a member. -/
inductive Presence where
  | required
  /-- The member may be left out or be `null`. -/
  | optional
  deriving DecidableEq

mutual

/-- What a value has to be. -/
inductive Shape where
  | text
  /-- A whole number from 0 to 2⁶⁴ - 1. -/
  | natural
  /-- A whole number from -2⁶³ to 2⁶³ - 1. -/
  | integer
  | real
  | truth
  /-- An object of any members. -/
  | table
  /-- An object whose members are natural numbers; their order does not count. -/
  | counters
  | list (item : Shape)
  | record (name : String) (fields : Fields)

/-- The members that a record names, in order. -/
inductive Fields where
  | nil
  | cons (name : String) (presence : Presence) (shape : Shape) (rest : Fields)

end

/-- What a member holds, given what its value holds. -/
def Presence.Holding : Presence → Type → Type
  | .required, α => α
  | .optional, α => Option α

mutual

/-- What a value of a shape holds. Next to its named members a record holds the others. -/
def Shape.Held : Shape → Type
  | .text => String
  | .natural => UInt64
  | .integer => Int64
  | .real => Binary64
  | .truth => Bool
  | .table => Members
  | .counters => Table UInt64
  | .list item => List item.Held
  | .record _ fields => fields.Held × Members

/-- What the named members of a record hold. -/
def Fields.Held : Fields → Type
  | .nil => Unit
  | .cons _ presence shape rest => presence.Holding shape.Held × rest.Held

end

/-- The named members of a record that is being read: the ones that have come so far. -/
def Fields.Slots : Fields → Type
  | .nil => Unit
  | .cons _ presence shape rest => Option (presence.Holding shape.Held) × rest.Slots

/-- No member has come yet. -/
def Fields.noSlots : (fields : Fields) → fields.Slots
  | .nil => ()
  | .cons _ _ _ rest => (none, rest.noSlots)

/-- What the record holds once all its members have come. The first one missing is the fault. -/
def Fields.ofSlots : (fields : Fields) → fields.Slots → Except Fault fields.Held
  | .nil, () => pure ()
  | .cons _ .optional _ rest, (slot, slots) => return (slot.join, ← rest.ofSlots slots)
  | .cons _ .required _ rest, (some held, slots) => return (held, ← rest.ofSlots slots)
  | .cons name .required _ _, (none, _) => throw (.mismatch (.missing name))

/-! ## Reading -/

/-- What a number is to a reader that wants something else. -/
def Number.found : Number → Found
  | .natural n => .whole n.toNat
  | .negative n => .whole (-(n.magnitude : Int))
  | .real x => .real x

namespace Reader

/-- Takes a value that is not of the kind wanted, up to where that shows. -/
def unexpected {α : Type} (wanted : Wanted) : Reader α := do
  let wrong (found : Found) : Reader α := throw (.mismatch (.type found wanted))
  match ← ahead with
  | none => throw .endOfValue
  | some 'n' =>
    takeNull
    wrong .nothing
  | some 't' =>
    takeTrue
    wrong (.truth true)
  | some 'f' =>
    takeFalse
    wrong (.truth false)
  | some '"' => wrong (.text (← string))
  | some '[' => wrong .list
  | some '\x7b' => wrong .table
  | some c => if startsNumber c then wrong (← number).found else throw .expectedValue

def text : Reader String := do
  if (← ahead) = some '"' then string else unexpected .text

def truth : Reader Bool := do
  match ← ahead with
  | some 't' =>
    takeTrue
    return true
  | some 'f' =>
    takeFalse
    return false
  | _ => unexpected .truth

/-- Takes a number that `convert?` accepts. It answers with a mismatch if it does not. -/
def numberAs {α : Type} (wanted : Wanted) (convert : Number → Except Mismatch α) : Reader α := do
  match ← ahead with
  | some c =>
    if startsNumber c then
      match convert (← number) with
      | .ok a => return a
      | .error m => throw (.mismatch m)
    else unexpected wanted
  | none => throw .endOfValue

/-- Takes a natural number of 64 bits. -/
def natural : Reader UInt64 :=
  numberAs .natural fun
    | .natural n => pure n
    | .real x => throw (.type (.real x) .natural)
    | n => throw (.value n.found .natural)

/-- Takes a whole number of 64 bits. -/
def integer : Reader Int64 :=
  numberAs .integer fun
    | .natural n =>
      if n.toNat < Negative.greatest then pure n.toInt64
      else throw (.value (.whole n.toNat) .integer)
    | .negative n => pure (Int64.ofInt (-(n.magnitude : Int)))
    | .real x => throw (.type (.real x) .integer)

/-- Takes a number; a whole one becomes the binary64 number nearest to it. -/
def real : Reader Binary64 :=
  let near (negative : Bool) (n : Nat) :=
    (Binary64.ofRatio? negative n 1).getD (Binary64.zero negative)
  numberAs .real fun
    | .natural n => pure (near false n.toNat)
    | .negative n => pure (near true n.magnitude)
    | .real x => pure x

/-- Goes into an array or object, its opening bracket or brace ahead, one level deeper. -/
def enter {α : Type} (inside : Nat → Reader α) : (depth : Nat) → Reader α
  | 0 => throw .tooDeep
  | depth + 1 => do
    skip
    inside depth

def array {α : Type} (inside : Nat → Reader α) (depth : Nat) : Reader α := do
  if (← ahead) = some '[' then enter inside depth else unexpected .list

/-- Takes an object where `wanted` is wanted. -/
def object {α : Type} (wanted : Wanted) (inside : Nat → Reader α) (depth : Nat) : Reader α := do
  if (← ahead) = some '\x7b' then enter inside depth else unexpected wanted

/-- Takes a member's value and keeps it under its key. -/
def freeMember (depth : Nat) (key : String) (members : Members) : Reader Members := do
  colon
  return Members.set key (← value depth) members

end Reader

/-- Takes what a member holds. -/
def Presence.read {α : Type} : (presence : Presence) → Reader α → Reader (presence.Holding α)
  | .required, reader => reader
  | .optional, reader => do
    if (← Reader.ahead) = some 'n' then
      Reader.takeNull
      return none
    else return some (← reader)

mutual

/-- Takes a value of a shape, nested at most `depth` deep. -/
def Shape.read : (shape : Shape) → (depth : Nat) → Reader shape.Held
  | .text, _ => Reader.text
  | .natural, _ => Reader.natural
  | .integer, _ => Reader.integer
  | .real, _ => Reader.real
  | .truth, _ => Reader.truth
  | .table, depth =>
    Reader.object .table (fun inner => Reader.members (Reader.freeMember inner) []) depth
  | .counters, depth =>
    Reader.object .table (fun _ => Reader.members (fun key taken => do
      Reader.colon
      return Table.insert key (← Reader.natural) taken) Table.empty) depth
  | .list item, depth => Reader.array (fun inner => Reader.items (item.read inner)) depth
  | .record name fields, depth =>
    Reader.object (.record name) (fun inner => do
      let (slots, extra) ← Reader.members (fun key (slots, extra) =>
        match fields.member? inner key slots with
        | some reader => do return (← reader, extra)
        | none => do return (slots, ← Reader.freeMember inner key extra))
        (fields.noSlots, ([] : Members))
      return (← (fields.ofSlots slots : Except Fault _), extra)) depth

/-- Takes the value of a named member, its key taken; `none` if the key names no member. -/
def Fields.member? : (fields : Fields) → (depth : Nat) → (key : String) → fields.Slots →
    Option (Reader fields.Slots)
  | .nil, _, _, _ => none
  | .cons name presence shape rest, depth, key, (slot, slots) =>
    if key = name then
      some (match slot with
        | some _ => throw (.mismatch (.repeated name))
        | none => do
          Reader.colon
          return (some (← presence.read (shape.read depth)), slots))
    else (rest.member? depth key slots).map fun reader => do return (slot, ← reader)

end

/-- Reads a text that is one value of the shape and nothing else. -/
def Shape.ofBytes (shape : Shape) (input : Bytes) : Except Fault shape.Held :=
  Reader.run (shape.read greatestDepth) input

/-! ## Writing -/

/-- The text of a member, unless it is optional and holds nothing. -/
def Presence.write {α : Type} (name : String) (write : α → Bytes) :
    (presence : Presence) → presence.Holding α → List Bytes
  | .required, held => [writeMember name (write held)]
  | .optional, some held => [writeMember name (write held)]
  | .optional, none => []

mutual

/-- The text of what a shape holds. -/
def Shape.write : (shape : Shape) → shape.Held → Bytes
  | .text, s => writeString s
  | .natural, n => octets (toString n.toNat)
  | .integer, i => octets (toString i.toInt)
  | .real, x => octets (Decimal.Layout.json.text x)
  | .truth, b => writeTruth b
  | .table, members => (Value.object members).write
  | .counters, table =>
    writeObject (table.entries.map fun (k, n) => writeMember k (octets (toString n.toNat)))
  | .list item, items => writeList (items.map item.write)
  | .record _ fields, (held, extra) => writeObject (fields.write held ++ writeMembers extra)

/-- The texts of a record's named members. -/
def Fields.write : (fields : Fields) → fields.Held → List Bytes
  | .nil, () => []
  | .cons name presence shape rest, (held, helds) =>
    presence.write name shape.write held ++ rest.write helds

end

/-! ## Equality -/

/-- Whether two members hold the same. -/
def Presence.same {α : Type} (same : α → α → Bool) :
    (presence : Presence) → presence.Holding α → presence.Holding α → Bool
  | .required, a, b => same a b
  | .optional, some a, some b => same a b
  | .optional, none, none => true
  | .optional, _, _ => false

/-- Whether two lists are the same, item by item. -/
def sameList {α : Type} (same : α → α → Bool) : List α → List α → Bool
  | [], [] => true
  | a :: as, b :: bs => same a b && sameList same as bs
  | _, _ => false

mutual

/-- Whether two values of a shape are the same. Only lists have an order. -/
def Shape.same : (shape : Shape) → shape.Held → shape.Held → Bool
  | .text, a, b => BEq.beq (α := String) a b
  | .natural, a, b => BEq.beq (α := UInt64) a b
  | .integer, a, b => BEq.beq (α := Int64) a b
  | .real, a, b => Binary64.same a b
  | .truth, a, b => BEq.beq (α := Bool) a b
  | .table, a, b => Members.same a b
  | .counters, a, b => BEq.beq (α := Table UInt64) a b
  | .list item, a, b => sameList item.same a b
  | .record _ fields, (a, extra), (b, extra') => fields.same a b && Members.same extra extra'

/-- Whether the named members of two records are the same. -/
def Fields.same : (fields : Fields) → fields.Held → fields.Held → Bool
  | .nil, (), () => true
  | .cons _ presence shape rest, (a, as), (b, bs) =>
    presence.same shape.same a b && rest.same as bs

end

end CrashCourier.Json
