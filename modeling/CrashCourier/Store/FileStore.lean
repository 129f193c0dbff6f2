import CrashCourier.Store.Basic
import CrashCourier.Store.ReportName

/-!
# Stores of files

The monitor writes each record as a file of the directory `Reports`. Files of other names are not
reports of the bundle and are left alone.

Every name in the directory is a text, and every entry a file or a directory, as on any `Disk`. A
name that is no UTF-8, which a listing would take with its broken octets replaced, does not occur,
nor does a symbolic link.
-/

namespace CrashCourier

/-- Where the reports of a bundle are. -/
structure Layout where
  bundleId : String
  /-- The path of the directory of reports. -/
  directory : String
  deriving DecidableEq

def Layout.reportPath (l : Layout) (id : Int64) : String :=
  Files.join l.directory (ReportName.format l.bundleId id)

/-- A store of files: where it is, once it has been told, and the files. -/
structure FileStore where
  layout : Option Layout
  disk : Files.Disk

namespace FileStore

/-- Works on a store of files. -/
abbrev Work := Action FileStore StoreFault

/-- The path of the directory of reports under a directory. -/
def reportsDirectory (basePath : String) : String :=
  Files.join basePath "Reports"

/-- Where the store is. -/
def installed : Work Layout := do
  match (← get).layout with
  | some l => return l
  | none => throw .notInstalled

/-- Makes the directory of reports and goes over to it. -/
def install (bundleId basePath : String) : Work Unit := do
  let directory := reportsDirectory basePath
  let s ← get
  let (result, disk) := s.disk.makeDirectories directory
  -- directories that were made stay, and the store stays where it was, if the last one fails
  set { s with disk }
  match result with
  | .error fault => throw (.file .create directory fault)
  | .ok () =>
    Action.note .info "Report store installed" [("bundle_id", bundleId), ("dir", directory)]
    set ({ layout := some ⟨bundleId, directory⟩, disk } : FileStore)

/-- The numbers of the reports in a list of names, ascending. -/
def idsOf (bundleId : String) (names : List String) : List Int64 :=
  (names.filterMap (ReportName.parse? · bundleId)).mergeSort fun a b => decide (a ≤ b)

/-- Lists the numbers of the reports. A directory that is not there holds none. -/
def ids : Work (List Int64) := do
  let l ← installed
  match (← get).disk.list l.directory with
  | .error .notFound => return []
  | .error fault => throw (.file .list l.directory fault)
  | .ok names =>
    let ids := idsOf l.bundleId names
    Action.note .debug "Listed crash reports" [("count", toString ids.length)]
    return ids

/-- Counts the reports. -/
def count : Work Nat := do
  return (← ids).length

/-- Reads a report. -/
def read (id : Int64) : Work (Option Bytes) := do
  let path := (← installed).reportPath id
  match (← get).disk.read path with
  | .error .notFound => return none
  | .error fault => throw (.file .read path fault)
  | .ok content => return some content

/-- Erases a report. -/
def delete (id : Int64) : Work Unit := do
  let path := (← installed).reportPath id
  let s ← get
  match s.disk.remove path with
  | .error .notFound => return ()
  | .error fault => throw (.file .delete path fault)
  | .ok disk =>
    set { s with disk }
    Action.note .debug "Deleted crash report" [("id", toString id.toInt)]

/-- Erases reports one after the other. -/
def deleteEach : List Int64 → Work Unit
  | [] => return ()
  | id :: rest => do
    delete id
    deleteEach rest

/-- Erases all reports that are listed. -/
def deleteAll : Work Unit := do
  deleteEach (← ids)

end FileStore

/-- The store of the monitor's files. -/
def ReportStore.files : ReportStore FileStore where
  install := FileStore.install
  count := FileStore.count
  ids := FileStore.ids
  read := FileStore.read
  delete := FileStore.delete
  deleteAll := FileStore.deleteAll

end CrashCourier
