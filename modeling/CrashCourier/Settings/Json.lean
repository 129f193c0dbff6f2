import CrashCourier.Json.Shape
import CrashCourier.Settings.Basic

/-!
# Collector settings in JSON

An object names the settings it gives and may hold other members, which are skipped; an array gives
the first settings in order. Settings that are not given are the default ones.
-/

namespace CrashCourier

open Json

/-! ## Methods -/

namespace Http.Method

/-- The method of a name, or the fault that there is none. -/
def named (name : String) : Except Fault Method :=
  match ofName? name with
  | some m => pure m
  | none => throw (.mismatch (.variant name (all.map Method.name)))

/-- Takes a method: its name, or an object with the name as its key and nothing as its value. -/
def reader : Reader Method := do
  match ← Reader.ahead with
  | none => throw .endOfValue
  | some '"' => named (← Reader.string)
  | some '\x7b' =>
    Reader.skip
    let name ← if (← Reader.ahead) = some '"' then Reader.string else Reader.unexpected .variant
    let m ← named name
    Reader.colon
    if (← Reader.ahead) = some 'n' then Reader.takeNull else Reader.unexpected .nothing
    match ← Reader.ahead with
    | none => throw .endOfObject
    | some '\x7d' =>
      Reader.skip
      return m
    | some _ => throw .expectedValue
  | some _ => throw .expectedValue

/-- What a value is to a reader that wants something else. -/
def found : Value → Found
  | .null => .nothing
  | .truth b => .truth b
  | .number n => n.found
  | .text s => .text s
  | .list _ => .list
  | .object _ => .table

/-- The method that a value names. -/
def ofValue : Value → Except Fault Method
  | .text name => named name
  | .object [(name, value)] => do
    let m ← named name
    match value with
    | .null => return m
    | v => throw (.mismatch (.type (found v) .nothing))
  | .object _ => throw (.mismatch (.value .table .singleKey))
  | v => throw (.mismatch (.type (found v) .variantOrTable))

/-- The text of a method in JSON. -/
def write (m : Method) : Bytes :=
  writeString m.name

end Http.Method

namespace Collector

/-! ## Reading -/

/-- The settings that have been given. -/
structure Given where
  url : Option String
  method : Option Http.Method
  headers : Option (Table String)
  timeoutSecs : Option UInt64
  attachmentKey : Option String

/-- Nothing has been given. -/
def Given.none : Given := ⟨.none, .none, .none, .none, .none⟩

/-- The settings that are given, over the default ones. -/
def Given.collector (g : Given) : Collector where
  url := g.url.getD Collector.standard.url
  method := g.method.getD Collector.standard.method
  headers := g.headers.getD Collector.standard.headers
  timeoutSecs := g.timeoutSecs.getD Collector.standard.timeoutSecs
  attachmentKey := g.attachmentKey.getD Collector.standard.attachmentKey

def headersReader : Reader (Table String) :=
  Reader.object .table (fun _ => Reader.members (fun key taken => do
    Reader.colon
    return taken.insert key (← Reader.text)) Table.empty) greatestDepth

/-- Takes a value that has not been given before, and the colon in front of it. -/
def once {α : Type} (name : String) (before : Option α) (reader : Reader α) : Reader (Option α) :=
  match before with
  | some _ => throw (.mismatch (.repeated name))
  | none => do
    Reader.colon
    return some (← reader)

/-- Takes a member of an object of settings. -/
def memberReader (key : String) (g : Given) : Reader Given := do
  match key with
  | "url" => return { g with url := ← once key g.url Reader.text }
  | "method" => return { g with method := ← once key g.method Http.Method.reader }
  | "headers" => return { g with headers := ← once key g.headers headersReader }
  | "timeout_secs" => return { g with timeoutSecs := ← once key g.timeoutSecs Reader.natural }
  | "attachment_key" => return { g with attachmentKey := ← once key g.attachmentKey Reader.text }
  | _ =>
    Reader.colon
    Reader.ignored
    return g

/-- Takes the next item of an array, if there is one. -/
def itemReader {α : Type} (first : Bool) (reader : Reader α) : Reader (Option α) := do
  if ← Reader.nextItem first then return some (← reader) else return none

/-- Takes the items of an array of settings and its closing bracket. -/
def itemsReader : Reader Given := do
  let url ← itemReader true Reader.text
  let method ← itemReader false Http.Method.reader
  let headers ← itemReader false headersReader
  let timeoutSecs ← itemReader false Reader.natural
  let attachmentKey ← itemReader false Reader.text
  match ← Reader.ahead with
  | some ']' =>
    Reader.skip
    return ⟨url, method, headers, timeoutSecs, attachmentKey⟩
  | some ',' =>
    Reader.skip
    if (← Reader.ahead) = some ']' then throw .trailingComma else throw .trailingCharacters
  | some _ => throw .trailingCharacters
  | none => throw .endOfList

/-- Takes collector settings. -/
def reader : Reader Collector := do
  match ← Reader.ahead with
  | some '\x7b' =>
    Reader.skip
    return (← Reader.members memberReader .none).collector
  | some '[' =>
    Reader.skip
    return (← itemsReader).collector
  | _ => Reader.unexpected (.record "CollectorConfig")

/-- The collector settings that a text writes. -/
def ofBytes (input : Bytes) : Except Fault Collector :=
  Reader.run reader input

/-! ## Writing -/

/-- The text of collector settings: an object of all of them. -/
def toBytes (c : Collector) : Bytes :=
  writeObject [
    writeMember "url" (writeString c.url),
    writeMember "method" c.method.write,
    writeMember "headers"
      (writeObject (c.headers.entries.map fun (k, v) => writeMember k (writeString v))),
    writeMember "timeout_secs" (octets (toString c.timeoutSecs.toNat)),
    writeMember "attachment_key" (writeString c.attachmentKey)]

end Collector

end CrashCourier
