import CrashCourier.Report.Basic

/-!
# What a report says

The questions that a report answers directly, and the changes that an application makes to one
before it is sent.
-/

namespace CrashCourier

/-- Whether the frame could not be attributed to a module. -/
def Frame.isEmpty (f : Frame) : Bool :=
  f.objectAddr.isNone || f.objectName.isNone

/-- Whether the stack pointer of the thread ran past the guard page. -/
def Thread.isStackOverflow (t : Thread) : Bool :=
  t.stack.any (·.overflow)

/-- The name of the kernel exception, if one was recorded with a name. -/
def CrashError.machExceptionName (e : CrashError) : Option String :=
  e.mach.bind (·.exceptionName)

/-- The name of the signal, if it is known. -/
def CrashError.signalName (e : CrashError) : Option String :=
  e.signal.name

def Backtrace.replace (b : Backtrace) (frames : List Frame) : Backtrace :=
  { b with contents := frames }

namespace CrashReport

/-- The identifier that the monitor gave the report. -/
def id (r : CrashReport) : String :=
  r.report.id

def processName (r : CrashReport) : String :=
  r.report.processName

/-- The first thread that is marked as the origin of the fault. -/
def crashedThread (r : CrashReport) : Option Thread :=
  r.crash.threads.find? (·.crashed)

/-- The diagnosis that the report carries. -/
def diagnosis (r : CrashReport) : Option String :=
  r.crash.diagnosis

/-- The report with this diagnosis in place of any it had. -/
def withDiagnosis (r : CrashReport) (diagnosis : Option String) : CrashReport :=
  { r with crash := { r.crash with diagnosis } }

/-! ## Changes -/

/-- The report under another process name. -/
def withProcessName (r : CrashReport) (name : String) : CrashReport :=
  { r with report := { r.report with processName := name } }

def withError (r : CrashReport) (error : CrashError) : CrashReport :=
  { r with crash := { r.crash with error } }

def thread? (r : CrashReport) (position : Nat) : Option Thread :=
  r.crash.threads[position]?

def modifyThread (r : CrashReport) (position : Nat) (change : Thread → Thread) : CrashReport :=
  { r with crash := { r.crash with threads := r.crash.threads.modify position change } }

/-- The report with other frames in one thread. -/
def replaceFrames (r : CrashReport) (position : Nat) (frames : List Frame) : CrashReport :=
  r.modifyThread position fun t => { t with backtrace := t.backtrace.replace frames }

/-- The report with one thread marked as the origin of the fault, or not. -/
def setCrashed (r : CrashReport) (position : Nat) (crashed : Bool) : CrashReport :=
  r.modifyThread position fun t => { t with crashed }

/-- The report with the overflow of one thread's stack set; nothing changes if the thread has no
stack. -/
def setOverflow (r : CrashReport) (position : Nat) (overflow : Bool) : CrashReport :=
  r.modifyThread position fun t => { t with stack := t.stack.map ({ · with overflow }) }

end CrashReport

end CrashCourier
