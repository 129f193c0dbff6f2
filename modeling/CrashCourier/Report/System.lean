import CrashCourier.Json.Record

/-!
# The device and the application

What a record holds of the device and of the application that crashed on it.
-/

namespace CrashCourier

open Json

/-- How the application was used between launches. Times are in seconds. -/
structure ApplicationStats where
  activeTimeSinceLastCrash : Binary64
  activeTimeSinceLaunch : Binary64
  applicationActive : Bool
  applicationInForeground : Bool
  backgroundTimeSinceLastCrash : Binary64
  backgroundTimeSinceLaunch : Binary64
  launchesSinceLastCrash : UInt64
  sessionsSinceLastCrash : UInt64
  sessionsSinceLaunch : UInt64
  /-- The members that are not modelled. -/
  extra : Members

/-- The members of `ApplicationStats` in a document. -/
def ApplicationStats.shape : Shape := .record "ApplicationStats" <|
  .need "active_time_since_last_crash" .real <| .need "active_time_since_launch" .real <|
  .need "application_active" .truth <| .need "application_in_foreground" .truth <|
  .need "background_time_since_last_crash" .real <| .need "background_time_since_launch" .real <|
  .need "launches_since_last_crash" .natural <| .need "sessions_since_last_crash" .natural <|
  .need "sessions_since_launch" .natural <| .nil

/-- What a document holds of it. -/
def ApplicationStats.held (x : ApplicationStats) : ApplicationStats.shape.Held :=
  ((x.activeTimeSinceLastCrash, x.activeTimeSinceLaunch, x.applicationActive,
    x.applicationInForeground, x.backgroundTimeSinceLastCrash, x.backgroundTimeSinceLaunch,
    x.launchesSinceLastCrash, x.sessionsSinceLastCrash, x.sessionsSinceLaunch, ()), x.extra)

/-- What is read from what a document holds. -/
def ApplicationStats.ofHeld : ApplicationStats.shape.Held → ApplicationStats
  | ((activeTimeSinceLastCrash, activeTimeSinceLaunch, applicationActive,
    applicationInForeground, backgroundTimeSinceLastCrash, backgroundTimeSinceLaunch,
    launchesSinceLastCrash, sessionsSinceLastCrash, sessionsSinceLaunch, ()), extra) =>
    ⟨activeTimeSinceLastCrash, activeTimeSinceLaunch, applicationActive, applicationInForeground,
      backgroundTimeSinceLastCrash, backgroundTimeSinceLaunch, launchesSinceLastCrash,
      sessionsSinceLastCrash, sessionsSinceLaunch, extra⟩

@[simp] theorem ApplicationStats.ofHeld_held (x : ApplicationStats) :
    ApplicationStats.ofHeld x.held = x := by
  rfl

@[simp] theorem ApplicationStats.held_ofHeld (h : ApplicationStats.shape.Held) :
    (ApplicationStats.ofHeld h).held = h :=
  rfl

instance : Record ApplicationStats :=
  ⟨ApplicationStats.shape, ApplicationStats.held, ApplicationStats.ofHeld,
    ApplicationStats.ofHeld_held, ApplicationStats.held_ofHeld⟩

/-- The memory of the device, in octets. -/
structure Memory where
  free : UInt64
  size : UInt64
  usable : UInt64
  /-- The members that are not modelled. -/
  extra : Members

/-- The members of `Memory` in a document. -/
def Memory.shape : Shape := .record "Memory" <|
  .need "free" .natural <| .need "size" .natural <| .need "usable" .natural <| .nil

/-- What a document holds of it. -/
def Memory.held (x : Memory) : Memory.shape.Held :=
  ((x.free, x.size, x.usable, ()), x.extra)

/-- What is read from what a document holds. -/
def Memory.ofHeld : Memory.shape.Held → Memory
  | ((free, size, usable, ()), extra) =>
    ⟨free, size, usable, extra⟩

@[simp] theorem Memory.ofHeld_held (x : Memory) : Memory.ofHeld x.held = x := by
  rfl

@[simp] theorem Memory.held_ofHeld (h : Memory.shape.Held) :
    (Memory.ofHeld h).held = h :=
  rfl

instance : Record Memory :=
  ⟨Memory.shape, Memory.held, Memory.ofHeld, Memory.ofHeld_held,
    Memory.held_ofHeld⟩

/-- The device and the application at the time of the crash. -/
structure System where
  bundleExecutable : String
  bundleExecutablePath : String
  bundleIdentifier : String
  bundleName : String
  bundleShortVersion : String
  bundleVersion : String
  appUuid : String
  applicationStats : ApplicationStats
  binaryCpuSubtype : Int64
  binaryCpuType : Int64
  /-- For instance `debug` or `app store`. -/
  buildType : String
  cpuArch : String
  cpuSubtype : Int64
  cpuType : Int64
  deviceAppHash : String
  jailbroken : Bool
  kernelVersion : String
  machine : String
  memory : Memory
  model : String
  osVersion : String
  parentProcessId : Int64
  processId : Int64
  processName : String
  /-- All storage, in octets. -/
  storage : UInt64
  systemName : String
  systemVersion : String
  timeZone : String
  /-- The members that are not modelled. -/
  extra : Members

/-- The members of `System` in a document. -/
def System.shape : Shape := .record "System" <|
  .need "CFBundleExecutable" .text <| .need "CFBundleExecutablePath" .text <|
  .need "CFBundleIdentifier" .text <| .need "CFBundleName" .text <|
  .need "CFBundleShortVersionString" .text <| .need "CFBundleVersion" .text <|
  .need "app_uuid" .text <| .need "application_stats" ApplicationStats.shape <|
  .need "binary_cpu_subtype" .integer <| .need "binary_cpu_type" .integer <|
  .need "build_type" .text <| .need "cpu_arch" .text <| .need "cpu_subtype" .integer <|
  .need "cpu_type" .integer <| .need "device_app_hash" .text <| .need "jailbroken" .truth <|
  .need "kernel_version" .text <| .need "machine" .text <| .need "memory" Memory.shape <|
  .need "model" .text <| .need "os_version" .text <| .need "parent_process_id" .integer <|
  .need "process_id" .integer <| .need "process_name" .text <| .need "storage" .natural <|
  .need "system_name" .text <| .need "system_version" .text <| .need "time_zone" .text <| .nil

/-- What a document holds of it. -/
def System.held (x : System) : System.shape.Held :=
  ((x.bundleExecutable, x.bundleExecutablePath, x.bundleIdentifier, x.bundleName,
    x.bundleShortVersion, x.bundleVersion, x.appUuid, x.applicationStats.held,
    x.binaryCpuSubtype, x.binaryCpuType, x.buildType, x.cpuArch, x.cpuSubtype, x.cpuType,
    x.deviceAppHash, x.jailbroken, x.kernelVersion, x.machine, x.memory.held, x.model,
    x.osVersion, x.parentProcessId, x.processId, x.processName, x.storage, x.systemName,
    x.systemVersion, x.timeZone, ()), x.extra)

/-- What is read from what a document holds. -/
def System.ofHeld : System.shape.Held → System
  | ((bundleExecutable, bundleExecutablePath, bundleIdentifier, bundleName, bundleShortVersion,
    bundleVersion, appUuid, applicationStats, binaryCpuSubtype, binaryCpuType, buildType,
    cpuArch, cpuSubtype, cpuType, deviceAppHash, jailbroken, kernelVersion, machine, memory,
    model, osVersion, parentProcessId, processId, processName, storage, systemName,
    systemVersion, timeZone, ()), extra) =>
    ⟨bundleExecutable, bundleExecutablePath, bundleIdentifier, bundleName, bundleShortVersion,
      bundleVersion, appUuid, ApplicationStats.ofHeld applicationStats, binaryCpuSubtype,
      binaryCpuType, buildType, cpuArch, cpuSubtype, cpuType, deviceAppHash, jailbroken,
      kernelVersion, machine, Memory.ofHeld memory, model, osVersion, parentProcessId, processId,
      processName, storage, systemName, systemVersion, timeZone, extra⟩

@[simp] theorem System.ofHeld_held (x : System) : System.ofHeld x.held = x := by
  cases x; simp [System.held, System.ofHeld]

@[simp] theorem System.held_ofHeld :
    ∀ h : System.shape.Held, (System.ofHeld h).held = h
  | ((_, _, _, _, _, _, _, applicationStats, _, _, _, _, _, _, _, _, _, _, memory, _), _) =>
    Prod.ext (Prod.ext rfl <| Prod.ext rfl <| Prod.ext rfl <| Prod.ext rfl <| Prod.ext rfl <|
      Prod.ext rfl <| Prod.ext rfl <| Prod.ext (ApplicationStats.held_ofHeld applicationStats) <|
      Prod.ext rfl <| Prod.ext rfl <| Prod.ext rfl <| Prod.ext rfl <| Prod.ext rfl <|
      Prod.ext rfl <| Prod.ext rfl <| Prod.ext rfl <| Prod.ext rfl <| Prod.ext rfl <|
      Prod.ext (Memory.held_ofHeld memory) <| rfl) rfl

instance : Record System :=
  ⟨System.shape, System.held, System.ofHeld, System.ofHeld_held,
    System.held_ofHeld⟩

end CrashCourier
