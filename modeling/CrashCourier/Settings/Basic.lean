import CrashCourier.Files.Path
import CrashCourier.Http.Method
import CrashCourier.Table

/-!
# Settings

Where reports are collected, where the monitor stores them, and how much is logged. Every setting
has a default. `Settings.problems` lists what an application must not start with.
-/

namespace CrashCourier

/-- How the collector is reached. -/
structure Collector where
  /-- Where batches of reports are sent. -/
  url : String
  method : Http.Method
  /-- Headers that every request carries. -/
  headers : Table String
  /-- How long a request may take. -/
  timeoutSecs : UInt64
  /-- The name of the form field that holds the report files. -/
  attachmentKey : String
  deriving DecidableEq

/-- Where the monitor stores reports. -/
structure StoreSettings where
  /-- What the names of the report files begin with. -/
  bundleId : String
  /-- The directory that holds the directory of reports. -/
  basePath : String
  deriving DecidableEq

/-- How much is logged. -/
structure Logging where
  level : String
  deriving DecidableEq

structure Settings where
  collector : Collector
  store : StoreSettings
  logging : Logging
  deriving DecidableEq

/-! ## Defaults -/

/-- What the process is told about the directories of its user. -/
structure Environment where
  /-- The home directory that is set. -/
  home : String
  /-- The home directory on record, which counts if the one that is set is empty. -/
  account : String
  /-- The directory for settings, if it is not the usual one. -/
  configHome : Option String
  /-- The directory for data, if it is not the usual one. -/
  dataHome : Option String

namespace Environment

/-- A directory that is given if its path begins at the root, else the usual one. -/
def directory (env : Environment) (given : Option String) (usual : String) : String :=
  match given.filter Files.isAbsolute with
  | some path => path
  | none => Files.join (if env.home.isEmpty then env.account else env.home) usual

def settingsPath (env : Environment) : String :=
  Files.join (Files.join (env.directory env.configHome ".config") "mayday") "config.yaml"

/-- Where reports are stored. -/
def basePath (env : Environment) : String :=
  Files.join (env.directory env.dataHome ".local/share") "mayday"

end Environment

/-- The hosted collector. -/
def Collector.standard : Collector where
  url := "https://collector.mayday.dev/api/v1/reports"
  method := .standard
  headers := .empty
  timeoutSecs := 15
  attachmentKey := "reports[]"

/-- The hosted collector, for one application of an organization. -/
def Collector.hosted (token bundleName bundleId : String) : Collector :=
  { Collector.standard with
    headers := .ofList [("X-Mayday-Token", token), ("X-Bundle-Name", bundleName),
      ("X-Bundle-Id", bundleId), ("User-Agent", "mayday/0.1.0")] }

/-- The settings of a process that is told nothing else. -/
def Settings.standard (env : Environment) : Settings where
  collector := .standard
  store := ⟨"app", env.basePath⟩
  logging := ⟨"info"⟩

/-! ## Problems -/

/-- A setting that cannot be used. -/
structure Problem where
  /-- The names of its section and of itself, with a point between them. -/
  field : String
  /-- What it has to be. -/
  message : String
  deriving DecidableEq

def Problem.text (p : Problem) : String :=
  p.field ++ ": " ++ p.message

/-- The names of the logging levels. -/
def Logging.levels : List String := ["trace", "debug", "info", "warn", "error"]

def beginsWith (beginning text : String) : Bool :=
  beginning.toList.isPrefixOf text.toList

/-- What is wrong with the settings, in the order of the settings. -/
def Settings.problems (s : Settings) : List Problem :=
  let check (bad : Bool) (field message : String) : List Problem :=
    if bad then [⟨field, message⟩] else []
  check (!(beginsWith "http://" s.collector.url || beginsWith "https://" s.collector.url))
      "collector.url" "must be an http or https URL" ++
    check (s.collector.timeoutSecs == 0) "collector.timeout_secs" "must be greater than 0" ++
    check s.collector.attachmentKey.isEmpty "collector.attachment_key" "must not be empty" ++
    check s.store.bundleId.isEmpty "store.bundle_id" "must not be empty" ++
    check (!Logging.levels.contains s.logging.level) "logging.level"
      "must be one of trace, debug, info, warn, error"

end CrashCourier
