import CrashCourier.Report.Thread

/-!
# The fault

What a record holds of the fault: the exception or signal, the threads, and the diagnosis once one
has been made.
-/

namespace CrashCourier

open Json

/-- A fault as the kernel caught it. -/
structure Mach where
  code : UInt64
  codeName : Option String
  exception : Int64
  /-- For instance `EXC_BAD_ACCESS`; a fault caught as a signal has none. -/
  exceptionName : Option String
  subcode : UInt64
  /-- The members that are not modelled. -/
  extra : Members

/-- The members of `Mach` in a document. -/
def Mach.shape : Shape := .record "Mach" <|
  .need "code" .natural <| .may "code_name" .text <| .need "exception" .integer <|
  .may "exception_name" .text <| .need "subcode" .natural <| .nil

/-- What a document holds of it. -/
def Mach.held (x : Mach) : Mach.shape.Held :=
  ((x.code, x.codeName, x.exception, x.exceptionName, x.subcode, ()), x.extra)

/-- What is read from what a document holds. -/
def Mach.ofHeld : Mach.shape.Held → Mach
  | ((code, codeName, exception, exceptionName, subcode, ()), extra) =>
    ⟨code, codeName, exception, exceptionName, subcode, extra⟩

@[simp] theorem Mach.ofHeld_held (x : Mach) : Mach.ofHeld x.held = x := by
  rfl

@[simp] theorem Mach.held_ofHeld (h : Mach.shape.Held) :
    (Mach.ofHeld h).held = h :=
  rfl

instance : Record Mach :=
  ⟨Mach.shape, Mach.held, Mach.ofHeld, Mach.ofHeld_held,
    Mach.held_ofHeld⟩

/-- The signal that stands for a fault. -/
structure Signal where
  code : Int64
  codeName : Option String
  /-- For instance `SIGSEGV`. -/
  name : Option String
  signal : Int64
  /-- The members that are not modelled. -/
  extra : Members

/-- The members of `Signal` in a document. -/
def Signal.shape : Shape := .record "Signal" <|
  .need "code" .integer <| .may "code_name" .text <| .may "name" .text <|
  .need "signal" .integer <| .nil

/-- What a document holds of it. -/
def Signal.held (x : Signal) : Signal.shape.Held :=
  ((x.code, x.codeName, x.name, x.signal, ()), x.extra)

/-- What is read from what a document holds. -/
def Signal.ofHeld : Signal.shape.Held → Signal
  | ((code, codeName, name, signal, ()), extra) =>
    ⟨code, codeName, name, signal, extra⟩

@[simp] theorem Signal.ofHeld_held (x : Signal) : Signal.ofHeld x.held = x := by
  rfl

@[simp] theorem Signal.held_ofHeld (h : Signal.shape.Held) :
    (Signal.ofHeld h).held = h :=
  rfl

instance : Record Signal :=
  ⟨Signal.shape, Signal.held, Signal.ofHeld, Signal.ofHeld_held,
    Signal.held_ofHeld⟩

/-- What went wrong. -/
structure CrashError where
  /-- The faulting address. -/
  address : UInt64
  /-- The kernel exception, if the kernel caught the fault. -/
  mach : Option Mach
  signal : Signal
  /-- The kind of crash: `mach`, `signal`, `deadlock`, …. -/
  kind : String
  exception : Option CpuException
  /-- The members that are not modelled. -/
  extra : Members

/-- The members of `CrashError` in a document. -/
def CrashError.shape : Shape := .record "ErrorCrash" <|
  .need "address" .natural <| .may "mach" Mach.shape <| .need "signal" Signal.shape <|
  .need "type" .text <| .may "exception" CpuException.shape <| .nil

/-- What a document holds of it. -/
def CrashError.held (x : CrashError) : CrashError.shape.Held :=
  ((x.address, x.mach.map Mach.held, x.signal.held, x.kind, x.exception.map CpuException.held,
    ()), x.extra)

/-- What is read from what a document holds. -/
def CrashError.ofHeld : CrashError.shape.Held → CrashError
  | ((address, mach, signal, kind, exception, ()), extra) =>
    ⟨address, mach.map Mach.ofHeld, Signal.ofHeld signal, kind,
      exception.map CpuException.ofHeld, extra⟩

@[simp] theorem CrashError.ofHeld_held (x : CrashError) : CrashError.ofHeld x.held = x := by
  cases x; simp [CrashError.held, CrashError.ofHeld, Function.comp_def]

@[simp] theorem CrashError.held_ofHeld :
    ∀ h : CrashError.shape.Held, (CrashError.ofHeld h).held = h
  | ((_, mach, signal, _, exception, _), _) =>
    Prod.ext (Prod.ext rfl <| Prod.ext (option_map_map_self Mach.held_ofHeld mach) <|
      Prod.ext (Signal.held_ofHeld signal) <| Prod.ext rfl <|
      Prod.ext (option_map_map_self CpuException.held_ofHeld exception) <| rfl) rfl

instance : Record CrashError :=
  ⟨CrashError.shape, CrashError.held, CrashError.ofHeld, CrashError.ofHeld_held,
    CrashError.held_ofHeld⟩

/-- The fault, the threads and the diagnosis. -/
structure Crash where
  error : CrashError
  threads : List Thread
  /-- One line on the probable cause. -/
  diagnosis : Option String
  /-- The members that are not modelled. -/
  extra : Members

/-- The members of `Crash` in a document. -/
def Crash.shape : Shape := .record "Crash" <|
  .need "error" CrashError.shape <| .need "threads" (.list Thread.shape) <|
  .may "diagnosis" .text <| .nil

/-- What a document holds of it. -/
def Crash.held (x : Crash) : Crash.shape.Held :=
  ((x.error.held, x.threads.map Thread.held, x.diagnosis, ()), x.extra)

/-- What is read from what a document holds. -/
def Crash.ofHeld : Crash.shape.Held → Crash
  | ((error, threads, diagnosis, ()), extra) =>
    ⟨CrashError.ofHeld error, threads.map Thread.ofHeld, diagnosis, extra⟩

@[simp] theorem Crash.ofHeld_held (x : Crash) : Crash.ofHeld x.held = x := by
  cases x; simp [Crash.held, Crash.ofHeld, Function.comp_def]

@[simp] theorem Crash.held_ofHeld :
    ∀ h : Crash.shape.Held, (Crash.ofHeld h).held = h
  | ((error, threads, _), _) =>
    Prod.ext (Prod.ext (CrashError.held_ofHeld error) <|
      Prod.ext (map_map_self Thread.held_ofHeld threads) <| rfl) rfl

instance : Record Crash :=
  ⟨Crash.shape, Crash.held, Crash.ofHeld, Crash.ofHeld_held,
    Crash.held_ofHeld⟩

end CrashCourier
