import CrashCourier.Report.Facts

/-!
# Diagnosis

One line on the probable cause of a crash. The rules are tried in order and the first that applies
gives the answer:

1. the error is a deadlock,
2. the stack of the crashed thread overflowed,
3. the fault is arithmetic,
4. the fault is an access to an invalid address.

A kernel exception with a name decides rules 3 and 4 alone; the signal counts only without one.
-/

namespace CrashCourier

/-- Finds the probable cause of a crash, if it can. -/
abbrev Doctor := CrashReport → Option String

namespace CrashReport

/-- Stands for the place of the crash if no frame of the application is known. -/
def unknownSymbol : String := "Unknown"

/-- The first frame of the crashed thread that belongs to the crashed process. -/
def firstAppFrame (r : CrashReport) : Option Frame :=
  r.crashedThread.bind fun t =>
    t.backtrace.contents.find? fun f => f.objectName == some r.processName

/-- The place of the crash. -/
def symbol (r : CrashReport) : String :=
  (r.firstAppFrame.bind (·.symbolName)).getD unknownSymbol

end CrashReport

/-- Whether the fault has this name as an exception, or, if it is no named exception, that name as
a signal. -/
def CrashError.isFault (e : CrashError) (exception signal : String) : Bool :=
  match e.machExceptionName with
  | some name => name == exception
  | none => e.signalName == some signal

namespace CrashReport

/-- The diagnosis by the first rule that applies. -/
def diagnose : Doctor := fun r =>
  let error := r.crash.error
  if error.kind = "deadlock" then
    some ("Main thread is deadlocked at " ++ r.symbol)
  else if r.crashedThread.any (·.isStackOverflow) then
    some ("Stack overflow at " ++ r.symbol)
  else if error.isFault "EXC_ARITHMETIC" "SIGFPE" then
    some ("Math error usually caused by division by 0, at " ++ r.symbol)
  else if error.isFault "EXC_BAD_ACCESS" "SIGSEGV" then
    if error.address = 0 then
      some ("Attempted to reference null pointer at " ++ r.symbol)
    else
      some ("Attempted to reference garbage pointer " ++ toString error.address.toNat ++ " at " ++
        r.symbol)
  else none

def diagnosed (r : CrashReport) (doctor : Doctor) : CrashReport :=
  r.withDiagnosis (doctor r)

end CrashReport

end CrashCourier
