/-!
# UTF-8

Text on the wire is a list of octets. `encode` writes characters; `decode?` reads them back and
refuses octets that are no UTF-8; `decodeLossy` reads any octets and puts one replacement
character for each longest run that starts a character and does not finish it.

The reader is a machine that takes one octet at a time. Between characters it holds nothing;
inside one it holds how many octets are owed, the range of the next one, and the bits so far.
-/

namespace CrashCourier

/-- Octets, as read from a record or sent to a collector. -/
abbrev Bytes := List UInt8

namespace Text.Utf8

/-- The octets of one character. -/
def encodeChar (c : Char) : Bytes :=
  String.utf8EncodeChar c

/-- The octets of a list of characters. -/
def encode (cs : List Char) : Bytes :=
  cs.flatMap encodeChar

/-- A character of which some octets are still owed. -/
structure Pending where
  /-- Octets owed, the next one included, less one. -/
  owed : Nat
  /-- The least octet that may come next. -/
  low : UInt8
  /-- The greatest octet that may come next. -/
  high : UInt8
  /-- The bits of the octets read so far. -/
  bits : Nat

/-- What one octet leads to. -/
inductive Progress where
  /-- The character goes on. -/
  | more (p : Pending)
  /-- The character is complete. -/
  | done (c : Char)
  /-- No character has this octet here. -/
  | broken

/-- The progress of a character's first octet. -/
def first (b : UInt8) : Progress :=
  let n := b.toNat
  if n < 0x80 then .done (Char.ofNat n)
  else if n < 0xC2 then .broken
  else if n < 0xE0 then .more ⟨0, 0x80, 0xBF, n - 0xC0⟩
  else if n < 0xF0 then
    .more ⟨1, if n = 0xE0 then 0xA0 else 0x80, if n = 0xED then 0x9F else 0xBF, n - 0xE0⟩
  else if n < 0xF5 then
    .more ⟨2, if n = 0xF0 then 0x90 else 0x80, if n = 0xF4 then 0x8F else 0xBF, n - 0xF0⟩
  else .broken

/-- The progress of an octet inside a character. -/
def Pending.next (p : Pending) (b : UInt8) : Progress :=
  if p.low ≤ b ∧ b ≤ p.high then
    let bits := p.bits * 64 + b.toNat % 64
    match p.owed with
    | 0 => .done (Char.ofNat bits)
    | n + 1 => .more ⟨n, 0x80, 0xBF, bits⟩
  else .broken

/-- Reads on from `held`, the character that is under way if there is one. -/
def decodeFrom? : Option Pending → Bytes → Option (List Char)
  | none, [] => some []
  | some _, [] => none
  | held, b :: rest =>
    match held.elim (first b) (·.next b) with
    | .more p => decodeFrom? (some p) rest
    | .done c => (decodeFrom? none rest).map (c :: ·)
    | .broken => none

/-- The characters that the octets encode, if they are UTF-8. -/
def decode? (bytes : Bytes) : Option (List Char) :=
  decodeFrom? none bytes

/-- The text that the octets encode, if they are UTF-8. -/
def text? (bytes : Bytes) : Option String :=
  (decode? bytes).map String.ofList

/-- Stands where octets encode no character. -/
def replacement : Char := '\uFFFD'

/-- The characters that an octet between characters completes, and the character it starts. -/
def startLossy (b : UInt8) : List Char × Option Pending :=
  match first b with
  | .more p => ([], some p)
  | .done c => ([c], none)
  | .broken => ([replacement], none)

/-- The characters that an octet completes, and the character that is under way after it. An octet
that does not continue the character under way ends it and is read again as a first one. -/
def stepLossy : Option Pending → UInt8 → List Char × Option Pending
  | none, b => startLossy b
  | some p, b =>
    match p.next b with
    | .more p' => ([], some p')
    | .done c => ([c], none)
    | .broken =>
      let (cs, held) := startLossy b
      (replacement :: cs, held)

/-- Reads on from `held`, with replacements. -/
def decodeLossyFrom : Option Pending → Bytes → List Char
  | none, [] => []
  | some _, [] => [replacement]
  | held, b :: rest =>
    let (cs, held') := stepLossy held b
    cs ++ decodeLossyFrom held' rest

/-- The text that the octets encode, broken characters replaced. -/
def decodeLossy (bytes : Bytes) : List Char :=
  decodeLossyFrom none bytes

end Text.Utf8

/-- The UTF-8 octets of a text. -/
def octets (s : String) : Bytes :=
  Text.Utf8.encode s.toList

end CrashCourier
