import CrashCourier.Delivery.Handler
import CrashCourier.Store.Basic

/-!
# Delivery passes

A pass reads all records of a store, diagnoses those that are reports, gives them to a handler in
one batch, and erases the records of the reports that the handler says have arrived. A record that
is no report is left alone. If the handler fails nothing is erased, and the next pass tries again.
-/

namespace CrashCourier

/-- What a store was doing when it failed. -/
inductive StoreWork where
  | install
  | count
  | list
  | read
  | delete
  | deleteAll
  deriving DecidableEq

/-- The words for what a store was doing. -/
def StoreWork.name : StoreWork → String
  | install => "install"
  | count => "count reports"
  | list => "list report ids"
  | read => "read a report"
  | delete => "delete a delivered report"
  | deleteAll => "delete all reports"

/-- Why a courier fails. -/
inductive CourierError where
  /-- The store has failed. -/
  | store (work : StoreWork) (fault : StoreFault)
  /-- The batch has not arrived. -/
  | delivery (error : HandlerError)
  deriving DecidableEq

/-- What has failed. -/
def CourierError.message : CourierError → String
  | store work fault => "Report store failed to " ++ work.name ++ ": " ++ fault.message
  | delivery error => error.message

/-- What delivers reports: a store, a handler and a doctor. -/
structure Courier (σ τ : Type) where
  store : ReportStore σ
  handler : Handler τ
  doctor : Doctor

namespace Courier

variable {σ τ : Type}

/-- Works on the state of the store and the state of the handler. -/
abbrev Work (σ τ : Type) := Action (σ × τ) CourierError

/-- Has the store do something. -/
def onStore {α : Type} (work : StoreWork) (a : Action σ StoreFault α) : Work σ τ α :=
  (a.onFirst).mapFault (.store work)

/-- A record that is to be delivered: its number and its report. -/
abbrev Pending := Int64 × CrashReport

/-- Reads one record. One that is gone or is no report gives nothing. -/
def fetchOne (c : Courier σ τ) (id : Int64) : Work σ τ (Option Pending) := do
  match ← onStore .read (c.store.read id) with
  | none =>
    Action.note .debug "Crash report disappeared before it could be read"
      [("id", toString id.toInt)]
    return none
  | some record =>
    match CrashReport.decode record with
    | .ok report => return some (id, report)
    | .error fault =>
      Action.note .warn "Dropping undecodable crash report"
        [("id", toString id.toInt), ("error", CrashReport.decodeMessage fault)]
      return none

/-- Reads the records of these numbers. -/
def fetchEach (c : Courier σ τ) : List Int64 → Work σ τ (List Pending)
  | [] => return []
  | id :: rest => do
    let here ← c.fetchOne id
    let others ← c.fetchEach rest
    return here.toList ++ others

/-- Reads all records. -/
def fetch (c : Courier σ τ) : Work σ τ (List Pending) := do
  let ids ← onStore .list c.store.ids
  Action.note .debug "Found pending crash reports" [("count", toString ids.length)]
  c.fetchEach ids

/-- Erases the records whose reports have arrived, by the identifiers of the reports. -/
def reconcile (c : Courier σ τ) (arrived : List String) : List Pending → Work σ τ Unit
  | [] => return ()
  | (id, report) :: rest => do
    if arrived.contains report.id then
      onStore .delete (c.store.delete id)
    else
      Action.note .warn "Handler did not confirm report, keeping it"
        [("id", toString id.toInt), ("report_id", report.id)]
    c.reconcile arrived rest

/-- Gives a batch to the handler. -/
def hand (c : Courier σ τ) (batch : List CrashReport) : Work σ τ (List CrashReport) := fun s log =>
  let ((result, s), log) := ((c.handler batch).onSecond : Action (σ × τ) _ _) s log
  match result with
  | .ok sent => ((.ok sent, s), log)
  | .error failure =>
    (do
      Action.note .warn "Crash report delivery failed, keeping reports for the next attempt"
        [("count", toString failure.reports.length), ("error", failure.message)]
      throw (.delivery failure.error) : Work σ τ (List CrashReport)) s log

/-- Delivers all records: the reports that have arrived, diagnosed. -/
def sendAll (c : Courier σ τ) : Work σ τ (List CrashReport) := do
  let pending ← c.fetch
  let pending := pending.map fun (id, report) => (id, report.diagnosed c.doctor)
  if pending.isEmpty then
    Action.note .debug "No pending crash reports, skipping upload" []
    return []
  Action.note .info "Sending crash reports" [("count", toString pending.length)]
  let sent ← c.hand (pending.map (·.2))
  -- the handler speaks of reports, the store of numbers: identifiers tie them together
  c.reconcile (sent.map (·.id)) pending
  Action.note .info "Crash reports delivered" [("count", toString sent.length)]
  return sent

/-! ## The other work of a courier -/

/-- Prepares the store. -/
def install (c : Courier σ τ) (bundleId basePath : String) : Work σ τ Unit :=
  onStore .install (c.store.install bundleId basePath)

/-- Counts the records. -/
def count (c : Courier σ τ) : Work σ τ Nat :=
  onStore .count c.store.count

/-- Erases all records without delivering them. -/
def deleteAll (c : Courier σ τ) : Work σ τ Unit := do
  onStore .deleteAll c.store.deleteAll
  Action.note .info "Deleted all pending crash reports" []

end Courier

end CrashCourier
