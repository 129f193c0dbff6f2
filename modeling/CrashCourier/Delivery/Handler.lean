import CrashCourier.Action
import CrashCourier.Report.Diagnosis

/-!
# Report handlers

A handler takes a batch of reports to a collector. It answers with the reports that have arrived, or
with why none has.
-/

namespace CrashCourier

/-- Why a batch does not arrive. -/
inductive HandlerError where
  /-- The collector refuses it with this code, or does not answer, which counts as the code 0. -/
  | transport (code : Nat) (description : String)
  /-- The collector answers and says neither that the batch has arrived nor that it has not. -/
  | unacknowledged (status : Nat)
  /-- Anything else that goes wrong in a handler. -/
  | other (message : String)
  deriving DecidableEq

def HandlerError.message : HandlerError → String
  | transport _ description => description
  | unacknowledged status =>
    "Collector answered with unclassified status " ++ toString status
  | other message => message

/-- A batch that has not arrived. -/
structure HandlerFailure where
  /-- The reports as the handler got them. -/
  reports : List CrashReport
  error : HandlerError

/-- The text of a failure is that of its error. -/
def HandlerFailure.message (f : HandlerFailure) : String :=
  f.error.message

/-- Takes a batch to a collector; works on states of type `τ`. -/
abbrev Handler (τ : Type) := (batch : List CrashReport) → Action τ HandlerFailure (List CrashReport)

/-! ## A handler that plays a script -/

/-- What a scripted handler answers to a batch. -/
inductive Verdict where
  /-- All has arrived. -/
  | all
  /-- The first reports have arrived. -/
  | first (n : Nat)
  /-- The reports of these identifiers have arrived, in this order; one that is not in the batch is
  the first of the batch under that identifier. -/
  | reports (ids : List String)
  /-- Nothing has arrived. -/
  | fail (error : HandlerError)

/-- The script of a handler, and the batches that it got. -/
structure Script where
  verdicts : List Verdict
  batches : List (List CrashReport)

/-- The report of an identifier in a batch. -/
def reportNamed (batch : List CrashReport) (id : String) : List CrashReport :=
  match batch.find? (·.id == id), batch with
  | some r, _ => [r]
  | none, r :: _ => [{ r with report := { r.report with id } }]
  | none, [] => []

def Verdict.answer (batch : List CrashReport) : Verdict → Except HandlerFailure (List CrashReport)
  | all => .ok batch
  | first n => .ok (batch.take n)
  | reports ids => .ok (ids.flatMap (reportNamed batch))
  | fail error => .error ⟨batch, error⟩

/-- The handler that plays a script, one verdict for a batch, and then says that all has arrived. -/
def Handler.scripted : Handler Script := fun batch => do
  let s ← get
  set (⟨s.verdicts.tail, s.batches ++ [batch]⟩ : Script)
  match (s.verdicts.head?.getD .all).answer batch with
  | .ok sent => return sent
  | .error failure => throw failure

end CrashCourier
