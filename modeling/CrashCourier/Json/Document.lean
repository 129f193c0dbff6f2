import CrashCourier.Json.Numeral

/-!
# Free values

`value` takes any JSON value, `ofBytes` a text that is one value and nothing else. Arrays and
objects are nested at most 127 deep. `ignored` takes a value that nobody wants: it is checked for
its form only, at any depth.
-/

namespace CrashCourier.Json

/-- How deep arrays and objects may be nested. -/
def greatestDepth : Nat := 127

namespace Reader

/-- Takes a value whose array or object, once its first character is taken, is up to `inside`. -/
def valueWith (list object : Reader Value) : Reader Value := do
  match ← ahead with
  | none => throw .endOfValue
  | some 'n' =>
    takeNull
    return .null
  | some 't' =>
    takeTrue
    return .truth true
  | some 'f' =>
    takeFalse
    return .truth false
  | some '"' => return .text (← string)
  | some '[' => list
  | some '\x7b' => object
  | some c => if startsNumber c then return .number (← number) else throw .expectedValue

/-- Takes a value in which arrays and objects are nested at most `depth` deep. -/
def value : (depth : Nat) → Reader Value
  | 0 => valueWith (throw .tooDeep) (throw .tooDeep)
  | depth + 1 =>
    valueWith
      (do
        skip
        return .list (← items (value depth)))
      (do
        skip
        return .object (← members (fun key taken => do
          colon
          return Members.set key (← value depth) taken) ([] : Members)))

/-- Nothing but blanks may follow. -/
def finish : Reader Unit := do
  match ← ahead with
  | none => pure ()
  | some _ => throw .trailingCharacters

/-- Reads a text that is one value and nothing else. -/
def run {α : Type} (reader : Reader α) (input : Bytes) : Except Fault α :=
  (StateT.run (do
    let a ← reader
    finish
    return a) input).map (·.1)

/-! ## Values that nobody wants -/

/-- Takes a string without looking at its characters, the opening quote taken. -/
def ignoredString : Reader Unit :=
  repeated (fun (_ : Unit) => do
    match ← octet? with
    | none => throw .endOfString
    | some b =>
      if b = 0x22 then return .inr ()
      else if b = 0x5C then
        match ← octet? with
        | none => throw .endOfString
        | some e =>
          if (escaped? (Char.ofUInt8 e)).isSome then return .inl ()
          else if Char.ofUInt8 e = 'u' then
            let _ ← hexEscape
            return .inl ()
          else throw .invalidEscape
      else if b < 0x20 then throw .controlCharacter
      else return .inl ()) ()

/-- Takes a scalar, or the opening bracket or brace of a collection, and says which: `true` stands
for an object. -/
def ignoredStart : Reader (Option Bool) := do
  match ← ahead with
  | none => throw .endOfValue
  | some 'n' =>
    takeNull
    return none
  | some 't' =>
    takeTrue
    return none
  | some 'f' =>
    takeFalse
    return none
  | some '"' =>
    skip
    ignoredString
    return none
  | some '[' =>
    skip
    return some false
  | some '\x7b' =>
    skip
    return some true
  | some c =>
    if startsNumber c then
      let _ ← numeral .invalidNumber
      return none
    else throw .expectedValue

/-- Takes a key and its colon. -/
def ignoredKey : Reader Unit := do
  match ← ahead with
  | none => throw .endOfObject
  | some '"' =>
    skip
    ignoredString
    colon
  | some _ => throw .keyNotString

/-- One step inside the collections that are open, the innermost first: closes one, or takes a
comma if `comma` says that a value came before, and the next value's start. -/
def ignoredStep : Bool × List Bool → Reader ((Bool × List Bool) ⊕ Unit)
  | (_, []) => return .inr ()
  | (comma, object :: outer) => do
    match ← ahead with
    | none => throw (if object then .endOfObject else .endOfList)
    | some c =>
      if c = (if object then '\x7d' else ']') then
        skip
        return .inl (true, outer)
      if comma then
        if c = ',' then skip
        else throw (if object then .expectedCommaOrBrace else .expectedCommaOrBracket)
      if object then ignoredKey
      match ← ignoredStart with
      | none => return .inl (true, object :: outer)
      | some inner => return .inl (false, inner :: object :: outer)

/-- Takes a value that nobody wants. -/
def ignored : Reader Unit := do
  match ← ignoredStart with
  | none => return ()
  | some inner => repeated ignoredStep (false, [inner])

end Reader

/-- The value that a text writes. -/
def Value.ofBytes (input : Bytes) : Except Fault Value :=
  Reader.run (Reader.value greatestDepth) input

end CrashCourier.Json
