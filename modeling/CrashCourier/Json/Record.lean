import CrashCourier.Json.Shape

/-!
# Types that are written as records

A type with a shape and a bijection to what the shape holds is read, written and compared through
its shape.
-/

namespace CrashCourier.Json

/-- A member that the record needs. -/
abbrev Fields.need (name : String) (shape : Shape) (rest : Fields) : Fields :=
  .cons name .required shape rest

/-- A member that the record may have. -/
abbrev Fields.may (name : String) (shape : Shape) (rest : Fields) : Fields :=
  .cons name .optional shape rest

theorem map_map_self {α β : Type} {f : α → β} {g : β → α} (h : ∀ b, f (g b) = b) (bs : List β) :
    (bs.map g).map f = bs := by
  simp [List.map_map, Function.comp_def, h]

theorem option_map_map_self {α β : Type} {f : α → β} {g : β → α} (h : ∀ b, f (g b) = b)
    (b : Option β) : (b.map g).map f = b := by
  simp [Option.map_map, Function.comp_def, h]

/-- A type whose values are written as records. -/
class Record (α : Type) where
  /-- The members of the record. -/
  shape : Shape
  /-- What the record holds of a value. -/
  held : α → shape.Held
  /-- The value of which a record holds this. -/
  ofHeld : shape.Held → α
  ofHeld_held : ∀ a, ofHeld (held a) = a
  held_ofHeld : ∀ h, held (ofHeld h) = h

namespace Record

variable {α : Type} [Record α]

/-- Takes a value. -/
def reader : Reader α := do
  return ofHeld (← (shape α).read greatestDepth)

/-- Reads a text that is one value and nothing else. -/
def ofBytes (input : Bytes) : Except Fault α :=
  Reader.run reader input

/-- Reads a text that is an array of values and nothing else. -/
def listOfBytes (input : Bytes) : Except Fault (List α) :=
  Reader.run (do
    let helds ← (Shape.list (shape α)).read greatestDepth
    return List.map ofHeld helds) input

/-- The text of a value. -/
def toBytes (a : α) : Bytes :=
  (shape α).write (held a)

/-- Whether two values are the same. -/
def same (a b : α) : Bool :=
  (shape α).same (held a) (held b)

end Record

end CrashCourier.Json
