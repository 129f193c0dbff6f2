import CrashCourier.Binary64

/-!
# JSON values

Numbers keep the kind they were written in: whole numbers of 64 bits stay whole, all others are
binary64. An object is the list of its members in the order in which their keys first came.

`same` is equality of values: members count without their order, the two zeros are one number, and
a whole number differs from the binary64 number of its value.
-/

namespace CrashCourier.Json

/-- The greatest magnitude of a negative whole number of 64 bits. -/
def Negative.greatest : Nat := 0x8000000000000000

/-- A negative whole number of 64 bits, by its magnitude. -/
structure Negative where
  magnitude : Nat
  magnitude_pos : 0 < magnitude
  magnitude_le : magnitude ≤ Negative.greatest
  deriving DecidableEq

/-- A number as it was written. -/
inductive Number where
  | natural (n : UInt64)
  | negative (n : Negative)
  | real (x : Binary64)
  deriving DecidableEq

/-- Whether two numbers are of one kind and have one value. -/
def Number.same : Number → Number → Bool
  | .natural m, .natural n => m == n
  | .negative m, .negative n => m.magnitude == n.magnitude
  | .real x, .real y => x.same y
  | _, _ => false

/-- A JSON value. -/
inductive Value where
  | null
  | truth (b : Bool)
  | number (n : Number)
  | text (s : String)
  | list (items : List Value)
  | object (members : List (String × Value))

/-- The members of an object. -/
abbrev Members := List (String × Value)

namespace Members

def get? (key : String) : Members → Option Value
  | [] => none
  | (k, v) :: rest => if k = key then some v else get? key rest

/-- Gives a key a value. A key that is new goes to the end; one that is there keeps its place. -/
def set (key : String) (value : Value) : Members → Members
  | [] => [(key, value)]
  | (k, v) :: rest => if k = key then (k, value) :: rest else (k, v) :: set key value rest

/-- The keys, in order. -/
def keys (members : Members) : List String :=
  members.map (·.1)

end Members

mutual

/-- Whether two values are the same. -/
def Value.same : Value → Value → Bool
  | .null, .null => true
  | .truth a, .truth b => a == b
  | .number a, .number b => a.same b
  | .text a, .text b => a == b
  | .list a, .list b => sameItems a b
  | .object a, .object b => a.length == b.length && sameMembers a b
  | _, _ => false

/-- Whether two arrays are the same. -/
def sameItems : List Value → List Value → Bool
  | [], [] => true
  | a :: as, b :: bs => a.same b && sameItems as bs
  | _, _ => false

/-- Whether each member of the first object has the same value in the second. -/
def sameMembers : List (String × Value) → List (String × Value) → Bool
  | [], _ => true
  | (k, v) :: rest, bs =>
    (match Members.get? k bs with
      | some w => v.same w
      | none => false) && sameMembers rest bs

end

/-- Whether two objects have the same members, in any order. -/
def Members.same (a b : Members) : Bool :=
  a.length == b.length && sameMembers a b

def Value.text? : Value → Option String
  | .text s => some s
  | _ => none

/-- The members of an object. -/
def Value.members? : Value → Option Members
  | .object members => some members
  | _ => none

/-- The value of a key, if this is an object that has it. -/
def Value.get? (v : Value) (key : String) : Option Value :=
  v.members?.bind (Members.get? key)

end CrashCourier.Json
