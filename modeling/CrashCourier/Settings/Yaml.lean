import CrashCourier.Settings.Json
import CrashCourier.Yaml.Reader

/-!
# Settings files

A settings file is a mapping of three sections, each of them a mapping of settings. Sections and
settings that are not given are the default ones; names that are not known are skipped.
-/

namespace CrashCourier

open Yaml

/-! ## Methods -/

/-- The name in a tag that marks one of a few names. -/
def tagName? (tag : Option String) : Option String :=
  match tag.map String.toList with
  | some ['!'] => some "!"
  | some ('!' :: name) => some (String.ofList name)
  | _ => none

/-- The method of a name that stands at a path. -/
def Http.Method.namedAt (path : Yaml.Path) (name : String) : Except Yaml.Fault Http.Method :=
  match ofName? name with
  | some m => pure m
  | none => throw (.mismatch path (.variant name (all.map Method.name)))

/-- Takes a method: a scalar with its name, or nothing with its name as the tag. What is wrong with
the name in a tag is said of the section around the method, unless the method is an alias. -/
def Http.Method.yamlReader (d : Document) (around path : Yaml.Path) :
    Yaml.Reader Http.Method := do
  let blamed := match ← Reader.peek with
    | .alias _ => path
    | _ => around
  let tagged (name : String) : Yaml.Reader Http.Method := do
    let m ← Method.namedAt blamed name
    Reader.nothing d path
    return m
  Reader.onNode d do
    match ← Reader.peek with
    | .scalar text _ tag =>
      match tagName? tag with
      | some name => tagged name
      | none =>
        let _ ← Reader.next
        Method.namedAt path text
    | .mappingStart tag =>
      match tagName? tag with
      | some name => tagged name
      | none => throw (.mismatch path (.type .table .tag))
    | .sequenceStart tag =>
      match tagName? tag with
      | some name => tagged name
      | none => throw (.mismatch path (.type .list .tag))
    | _ => throw .broken

/-! ## Sections -/

def Collector.headersYaml (d : Document) (path : Yaml.Path) : Yaml.Reader (Table String) :=
  Reader.mapping d path .table .text (fun name key taken => do
    return taken.insert key (← Reader.text d (path ++ [name]) .text)) Table.empty

/-- Takes collector settings. -/
def Collector.yamlReader (d : Document) (path : Yaml.Path) : Yaml.Reader Collector := do
  let given ← Reader.mapping d path (.record "CollectorConfig") .field (fun name key g => do
    let here := path ++ [name]
    match key with
    | "url" => return { g with url := ← Reader.once path key g.url (Reader.text d here .text) }
    | "method" =>
      return { g with
        method := ← Reader.once path key g.method (Http.Method.yamlReader d path here) }
    | "headers" =>
      return { g with
        headers := ← Reader.once path key g.headers (Collector.headersYaml d here) }
    | "timeout_secs" =>
      return { g with
        timeoutSecs := ← Reader.once path key g.timeoutSecs (Reader.natural d here) }
    | "attachment_key" =>
      return { g with
        attachmentKey := ← Reader.once path key g.attachmentKey (Reader.text d here .text) }
    | _ =>
      Reader.ignored
      return g) Collector.Given.none
  return given.collector

def StoreSettings.yamlReader (usual : StoreSettings) (d : Document) (path : Yaml.Path) :
    Yaml.Reader StoreSettings := do
  let (bundleId, basePath) ← Reader.mapping d path (.record "StoreConfig") .field
    (fun name key (bundleId, basePath) => do
      let here := path ++ [name]
      match key with
      | "bundle_id" =>
        return (← Reader.once path key bundleId (Reader.text d here .text), basePath)
      | "base_path" =>
        return (bundleId, ← Reader.once path key basePath (Reader.text d here .path))
      | _ =>
        Reader.ignored
        return (bundleId, basePath)) ((none : Option String), (none : Option String))
  return ⟨bundleId.getD usual.bundleId, basePath.getD usual.basePath⟩

/-- Takes logging settings. -/
def Logging.yamlReader (usual : Logging) (d : Document) (path : Yaml.Path) :
    Yaml.Reader Logging := do
  let level ← Reader.mapping d path (.record "LoggingConfig") .field (fun name key level => do
    match key with
    | "level" => Reader.once path key level (Reader.text d (path ++ [name]) .text)
    | _ =>
      Reader.ignored
      return level) (none : Option String)
  return ⟨level.getD usual.level⟩

namespace Settings

/-- The sections that have been given. -/
structure Given where
  collector : Option Collector
  store : Option StoreSettings
  logging : Option Logging

def yamlReader (usual : Settings) (d : Document) : Yaml.Reader Settings := do
  let given ← Reader.mapping d [] (.record "Config") .field (fun name key (g : Given) => do
    let here := [name]
    match key with
    | "collector" =>
      return { g with
        collector := ← Reader.once [] key g.collector (Collector.yamlReader d here) }
    | "store" =>
      return { g with store := ← Reader.once [] key g.store (usual.store.yamlReader d here) }
    | "logging" =>
      return { g with
        logging := ← Reader.once [] key g.logging (usual.logging.yamlReader d here) }
    | _ =>
      Reader.ignored
      return g) ⟨none, none, none⟩
  return ⟨given.collector.getD usual.collector, given.store.getD usual.store,
    given.logging.getD usual.logging⟩

/-- The settings that a text writes, over the usual ones. A value that does not fit is found before
a fault of the text that comes after it. -/
def ofYaml (usual : Settings) (text : List Char) : Except Yaml.Fault Settings := do
  let d := Document.ofText text
  let (settings, _) ← (yamlReader usual d).run d.pieces
  if d.complete && d.alone then return settings else throw .broken

end Settings

end CrashCourier
