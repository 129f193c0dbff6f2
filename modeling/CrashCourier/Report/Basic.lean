import CrashCourier.Report.Crash
import CrashCourier.Report.System

/-!
# Crash reports

A report is a crash record of the monitor in its decoded form. Every part keeps the members that it
does not model, so that writing a report gives back the whole document it was read from.
-/

namespace CrashCourier

open Json

/-- An executable or library that the process had loaded. -/
structure BinaryImage where
  cpuSubtype : Int64
  cpuType : Int64
  imageAddr : UInt64
  imageSize : UInt64
  imageVmaddr : UInt64
  majorVersion : UInt64
  minorVersion : UInt64
  /-- Where the image is on the device. -/
  name : String
  revisionVersion : UInt64
  uuid : String
  /-- The members that are not modelled. -/
  extra : Members

/-- The members of `BinaryImage` in a document. -/
def BinaryImage.shape : Shape := .record "BinaryImage" <|
  .need "cpu_subtype" .integer <| .need "cpu_type" .integer <| .need "image_addr" .natural <|
  .need "image_size" .natural <| .need "image_vmaddr" .natural <|
  .need "major_version" .natural <| .need "minor_version" .natural <| .need "name" .text <|
  .need "revision_version" .natural <| .need "uuid" .text <| .nil

/-- What a document holds of it. -/
def BinaryImage.held (x : BinaryImage) : BinaryImage.shape.Held :=
  ((x.cpuSubtype, x.cpuType, x.imageAddr, x.imageSize, x.imageVmaddr, x.majorVersion,
    x.minorVersion, x.name, x.revisionVersion, x.uuid, ()), x.extra)

/-- What is read from what a document holds. -/
def BinaryImage.ofHeld : BinaryImage.shape.Held → BinaryImage
  | ((cpuSubtype, cpuType, imageAddr, imageSize, imageVmaddr, majorVersion, minorVersion, name,
    revisionVersion, uuid, ()), extra) =>
    ⟨cpuSubtype, cpuType, imageAddr, imageSize, imageVmaddr, majorVersion, minorVersion, name,
      revisionVersion, uuid, extra⟩

@[simp] theorem BinaryImage.ofHeld_held (x : BinaryImage) : BinaryImage.ofHeld x.held = x := by
  rfl

@[simp] theorem BinaryImage.held_ofHeld (h : BinaryImage.shape.Held) :
    (BinaryImage.ofHeld h).held = h :=
  rfl

instance : Record BinaryImage :=
  ⟨BinaryImage.shape, BinaryImage.held, BinaryImage.ofHeld, BinaryImage.ofHeld_held,
    BinaryImage.held_ofHeld⟩

/-- What identifies a report. -/
structure Identity where
  /-- The identifier that the monitor gave the report. -/
  id : String
  /-- The name of the crashed process. -/
  processName : String
  /-- The flavour of the report: `standard`, `minimal` or `custom`. -/
  kind : String
  /-- The version of the format. -/
  version : String
  /-- The members that are not modelled. -/
  extra : Members

/-- The members of `Identity` in a document. -/
def Identity.shape : Shape := .record "ReportInfo" <|
  .need "id" .text <| .need "process_name" .text <| .need "type" .text <|
  .need "version" .text <| .nil

/-- What a document holds of it. -/
def Identity.held (x : Identity) : Identity.shape.Held :=
  ((x.id, x.processName, x.kind, x.version, ()), x.extra)

/-- What is read from what a document holds. -/
def Identity.ofHeld : Identity.shape.Held → Identity
  | ((id, processName, kind, version, ()), extra) =>
    ⟨id, processName, kind, version, extra⟩

@[simp] theorem Identity.ofHeld_held (x : Identity) : Identity.ofHeld x.held = x := by
  rfl

@[simp] theorem Identity.held_ofHeld (h : Identity.shape.Held) :
    (Identity.ofHeld h).held = h :=
  rfl

instance : Record Identity :=
  ⟨Identity.shape, Identity.held, Identity.ofHeld, Identity.ofHeld_held,
    Identity.held_ofHeld⟩

/-- One crash record. -/
structure CrashReport where
  /-- The images that were loaded. -/
  binaryImages : List BinaryImage
  crash : Crash
  debug : Option Members
  process : Option Members
  report : Identity
  system : System
  /-- What the application wrote at the time of the crash. -/
  user : Option Members
  /-- The members that are not modelled. -/
  extra : Members

/-- The members of `CrashReport` in a document. -/
def CrashReport.shape : Shape := .record "CrashReport" <|
  .need "binary_images" (.list BinaryImage.shape) <| .need "crash" Crash.shape <|
  .may "debug" .table <| .may "process" .table <| .need "report" Identity.shape <|
  .need "system" System.shape <| .may "user" .table <| .nil

/-- What a document holds of it. -/
def CrashReport.held (x : CrashReport) : CrashReport.shape.Held :=
  ((x.binaryImages.map BinaryImage.held, x.crash.held, x.debug, x.process, x.report.held,
    x.system.held, x.user, ()), x.extra)

/-- What is read from what a document holds. -/
def CrashReport.ofHeld : CrashReport.shape.Held → CrashReport
  | ((binaryImages, crash, debug, process, report, system, user, ()), extra) =>
    ⟨binaryImages.map BinaryImage.ofHeld, Crash.ofHeld crash, debug, process,
      Identity.ofHeld report, System.ofHeld system, user, extra⟩

@[simp] theorem CrashReport.ofHeld_held (x : CrashReport) : CrashReport.ofHeld x.held = x := by
  cases x; simp [CrashReport.held, CrashReport.ofHeld, Function.comp_def]

@[simp] theorem CrashReport.held_ofHeld :
    ∀ h : CrashReport.shape.Held, (CrashReport.ofHeld h).held = h
  | ((binaryImages, crash, _, _, report, system, _), _) =>
    Prod.ext (Prod.ext (map_map_self BinaryImage.held_ofHeld binaryImages) <|
      Prod.ext (Crash.held_ofHeld crash) <| Prod.ext rfl <| Prod.ext rfl <|
      Prod.ext (Identity.held_ofHeld report) <| Prod.ext (System.held_ofHeld system) <| rfl) rfl

instance : Record CrashReport :=
  ⟨CrashReport.shape, CrashReport.held, CrashReport.ofHeld, CrashReport.ofHeld_held,
    CrashReport.held_ofHeld⟩

namespace CrashReport

def decode (record : Bytes) : Except Fault CrashReport :=
  Record.ofBytes record

def encode (r : CrashReport) : Bytes :=
  Record.toBytes r

/-- Whether two reports say the same. -/
def same (r s : CrashReport) : Bool :=
  Record.same r s

/-- The message about a record that cannot be read. -/
def decodeMessage (fault : Fault) : String :=
  "Failed to decode crash report: " ++ fault.message

end CrashReport

end CrashCourier
