import CrashCourier.Files.Disk
import CrashCourier.Settings.Yaml

/-!
# Loading settings

Settings are loaded from the content of a file, if there is one.
-/

namespace CrashCourier.Settings

/-- Why settings cannot be loaded. -/
inductive LoadFault where
  /-- The file cannot be read. -/
  | file (fault : Files.Fault)
  /-- The file holds no text. -/
  | notText
  /-- The text holds no settings. -/
  | settings (fault : Yaml.Fault)

/-- The text of a fault, if it is one of the file. -/
def LoadFault.message? : LoadFault → Option String
  | file fault => some fault.message
  | notText => some "stream did not contain valid UTF-8"
  | settings fault => fault.message?

/-- The settings that a file's content holds, over the usual ones. -/
def ofContent (usual : Settings) (content : Bytes) : Except LoadFault Settings :=
  match Text.Utf8.decode? content with
  | none => throw .notText
  | some text => (ofYaml usual text).mapError .settings

/-- Loads settings from the file at a path. -/
def load (usual : Settings) (disk : Files.Disk) (path : String) : Except LoadFault Settings :=
  match disk.read path with
  | .error fault => throw (.file fault)
  | .ok content => ofContent usual content

/-- Loads settings, or takes the usual ones if that fails. -/
def loadOrUsual (usual : Settings) (disk : Files.Disk) (path : String) : Settings :=
  match load usual disk path with
  | .ok s => s
  | .error _ => usual

end CrashCourier.Settings
