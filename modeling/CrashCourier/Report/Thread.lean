import CrashCourier.Json.Record

/-!
# Threads

What a record holds of the threads of the crashed process: their call stacks, registers and stack
memory.
-/

namespace CrashCourier

open Json

/-- The exception registers of the processor. -/
structure CpuException where
  /-- Exception syndrome. -/
  esr : UInt64
  exception : UInt64
  /-- Faulting address. -/
  far : UInt64
  /-- The members that are not modelled. -/
  extra : Members

/-- The members of `CpuException` in a document. -/
def CpuException.shape : Shape := .record "CpuException" <|
  .need "esr" .natural <| .need "exception" .natural <| .need "far" .natural <| .nil

/-- What a document holds of it. -/
def CpuException.held (x : CpuException) : CpuException.shape.Held :=
  ((x.esr, x.exception, x.far, ()), x.extra)

/-- What is read from what a document holds. -/
def CpuException.ofHeld : CpuException.shape.Held → CpuException
  | ((esr, exception, far, ()), extra) =>
    ⟨esr, exception, far, extra⟩

@[simp] theorem CpuException.ofHeld_held (x : CpuException) : CpuException.ofHeld x.held = x := by
  rfl

@[simp] theorem CpuException.held_ofHeld (h : CpuException.shape.Held) :
    (CpuException.ofHeld h).held = h :=
  rfl

instance : Record CpuException :=
  ⟨CpuException.shape, CpuException.held, CpuException.ofHeld, CpuException.ofHeld_held,
    CpuException.held_ofHeld⟩

/-- One frame of a call stack. -/
structure Frame where
  instructionAddr : UInt64
  objectAddr : Option UInt64
  /-- The module that owns the instruction. -/
  objectName : Option String
  symbolAddr : Option UInt64
  symbolName : Option String
  /-- The members that are not modelled. -/
  extra : Members

/-- The members of `Frame` in a document. -/
def Frame.shape : Shape := .record "BacktraceContent" <|
  .need "instruction_addr" .natural <| .may "object_addr" .natural <| .may "object_name" .text <|
  .may "symbol_addr" .natural <| .may "symbol_name" .text <| .nil

/-- What a document holds of it. -/
def Frame.held (x : Frame) : Frame.shape.Held :=
  ((x.instructionAddr, x.objectAddr, x.objectName, x.symbolAddr, x.symbolName, ()), x.extra)

/-- What is read from what a document holds. -/
def Frame.ofHeld : Frame.shape.Held → Frame
  | ((instructionAddr, objectAddr, objectName, symbolAddr, symbolName, ()), extra) =>
    ⟨instructionAddr, objectAddr, objectName, symbolAddr, symbolName, extra⟩

@[simp] theorem Frame.ofHeld_held (x : Frame) : Frame.ofHeld x.held = x := by
  rfl

@[simp] theorem Frame.held_ofHeld (h : Frame.shape.Held) :
    (Frame.ofHeld h).held = h :=
  rfl

instance : Record Frame :=
  ⟨Frame.shape, Frame.held, Frame.ofHeld, Frame.ofHeld_held,
    Frame.held_ofHeld⟩

/-- The call stack of a thread, innermost frame first. -/
structure Backtrace where
  contents : List Frame
  /-- How many frames the monitor dropped from the middle of a deep stack. -/
  skipped : UInt64
  /-- The members that are not modelled. -/
  extra : Members

/-- The members of `Backtrace` in a document. -/
def Backtrace.shape : Shape := .record "Backtrace" <|
  .need "contents" (.list Frame.shape) <| .need "skipped" .natural <| .nil

/-- What a document holds of it. -/
def Backtrace.held (x : Backtrace) : Backtrace.shape.Held :=
  ((x.contents.map Frame.held, x.skipped, ()), x.extra)

/-- What is read from what a document holds. -/
def Backtrace.ofHeld : Backtrace.shape.Held → Backtrace
  | ((contents, skipped, ()), extra) =>
    ⟨contents.map Frame.ofHeld, skipped, extra⟩

@[simp] theorem Backtrace.ofHeld_held (x : Backtrace) : Backtrace.ofHeld x.held = x := by
  cases x; simp [Backtrace.held, Backtrace.ofHeld, Function.comp_def]

@[simp] theorem Backtrace.held_ofHeld :
    ∀ h : Backtrace.shape.Held, (Backtrace.ofHeld h).held = h
  | ((contents, _), _) =>
    Prod.ext (Prod.ext (map_map_self Frame.held_ofHeld contents) <| rfl) rfl

instance : Record Backtrace :=
  ⟨Backtrace.shape, Backtrace.held, Backtrace.ofHeld, Backtrace.ofHeld_held,
    Backtrace.held_ofHeld⟩

/-- The registers of a thread. -/
structure Registers where
  /-- General purpose registers by name, the names ascending. -/
  basic : Table UInt64
  exception : Option CpuException
  /-- The members that are not modelled. -/
  extra : Members

/-- The members of `Registers` in a document. -/
def Registers.shape : Shape := .record "Registers" <|
  .need "basic" .counters <| .may "exception" CpuException.shape <| .nil

/-- What a document holds of it. -/
def Registers.held (x : Registers) : Registers.shape.Held :=
  ((x.basic, x.exception.map CpuException.held, ()), x.extra)

/-- What is read from what a document holds. -/
def Registers.ofHeld : Registers.shape.Held → Registers
  | ((basic, exception, ()), extra) =>
    ⟨basic, exception.map CpuException.ofHeld, extra⟩

@[simp] theorem Registers.ofHeld_held (x : Registers) : Registers.ofHeld x.held = x := by
  cases x; simp [Registers.held, Registers.ofHeld, Function.comp_def]

@[simp] theorem Registers.held_ofHeld :
    ∀ h : Registers.shape.Held, (Registers.ofHeld h).held = h
  | ((_, exception, _), _) =>
    Prod.ext (Prod.ext rfl <|
      Prod.ext (option_map_map_self CpuException.held_ofHeld exception) <| rfl) rfl

instance : Record Registers :=
  ⟨Registers.shape, Registers.held, Registers.ofHeld, Registers.ofHeld_held,
    Registers.held_ofHeld⟩

/-- A dump of the memory around the stack pointer. -/
structure Stack where
  /-- The octets, in hexadecimal. -/
  contents : String
  dumpEnd : UInt64
  dumpStart : UInt64
  /-- `-` if the stack grows downward. -/
  growDirection : String
  /-- Whether the stack pointer ran past the guard page. -/
  overflow : Bool
  stackPointer : UInt64
  /-- The members that are not modelled. -/
  extra : Members

/-- The members of `Stack` in a document. -/
def Stack.shape : Shape := .record "Stack" <|
  .need "contents" .text <| .need "dump_end" .natural <| .need "dump_start" .natural <|
  .need "grow_direction" .text <| .need "overflow" .truth <| .need "stack_pointer" .natural <|
  .nil

/-- What a document holds of it. -/
def Stack.held (x : Stack) : Stack.shape.Held :=
  ((x.contents, x.dumpEnd, x.dumpStart, x.growDirection, x.overflow, x.stackPointer,
    ()), x.extra)

/-- What is read from what a document holds. -/
def Stack.ofHeld : Stack.shape.Held → Stack
  | ((contents, dumpEnd, dumpStart, growDirection, overflow, stackPointer, ()), extra) =>
    ⟨contents, dumpEnd, dumpStart, growDirection, overflow, stackPointer, extra⟩

@[simp] theorem Stack.ofHeld_held (x : Stack) : Stack.ofHeld x.held = x := by
  rfl

@[simp] theorem Stack.held_ofHeld (h : Stack.shape.Held) :
    (Stack.ofHeld h).held = h :=
  rfl

instance : Record Stack :=
  ⟨Stack.shape, Stack.held, Stack.ofHeld, Stack.ofHeld_held,
    Stack.held_ofHeld⟩

/-- One thread of the crashed process. -/
structure Thread where
  backtrace : Backtrace
  /-- Whether this thread faulted. -/
  crashed : Bool
  /-- Whether this thread wrote the record. -/
  currentThread : Bool
  index : UInt64
  registers : Option Registers
  stack : Option Stack
  name : Option String
  /-- The members that are not modelled. -/
  extra : Members

/-- The members of `Thread` in a document. -/
def Thread.shape : Shape := .record "CrashThread" <|
  .need "backtrace" Backtrace.shape <| .need "crashed" .truth <| .need "current_thread" .truth <|
  .need "index" .natural <| .may "registers" Registers.shape <| .may "stack" Stack.shape <|
  .may "name" .text <| .nil

/-- What a document holds of it. -/
def Thread.held (x : Thread) : Thread.shape.Held :=
  ((x.backtrace.held, x.crashed, x.currentThread, x.index, x.registers.map Registers.held,
    x.stack.map Stack.held, x.name, ()), x.extra)

/-- What is read from what a document holds. -/
def Thread.ofHeld : Thread.shape.Held → Thread
  | ((backtrace, crashed, currentThread, index, registers, stack, name, ()), extra) =>
    ⟨Backtrace.ofHeld backtrace, crashed, currentThread, index, registers.map Registers.ofHeld,
      stack.map Stack.ofHeld, name, extra⟩

@[simp] theorem Thread.ofHeld_held (x : Thread) : Thread.ofHeld x.held = x := by
  cases x; simp [Thread.held, Thread.ofHeld, Function.comp_def]

@[simp] theorem Thread.held_ofHeld :
    ∀ h : Thread.shape.Held, (Thread.ofHeld h).held = h
  | ((backtrace, _, _, _, registers, stack, _), _) =>
    Prod.ext (Prod.ext (Backtrace.held_ofHeld backtrace) <| Prod.ext rfl <| Prod.ext rfl <|
      Prod.ext rfl <| Prod.ext (option_map_map_self Registers.held_ofHeld registers) <|
      Prod.ext (option_map_map_self Stack.held_ofHeld stack) <| rfl) rfl

instance : Record Thread :=
  ⟨Thread.shape, Thread.held, Thread.ofHeld, Thread.ofHeld_held,
    Thread.held_ofHeld⟩

end CrashCourier
