import CrashCourier.Report.Diagnosis
import Mathlib.Tactic.SplitIfs

/-!
# What a diagnosis rests on

A diagnosis rests on a few things that a report says, its `Symptoms`. `CrashReport.Shows` tells where in
the report they are found, and `Symptoms.Indicates` is the table of the rules. Every report shows
symptoms of one kind only (`CrashReport.shows_iff`), and they indicate one diagnosis, which is the one
that is made (`CrashReport.diagnose_iff_indicates`). So nothing else in the report has a say in it.
-/

namespace CrashCourier

/-- What a fault is called: by the kernel or, if the kernel has no name for it, by its signal. -/
inductive FaultName where
  | exception (name : String)
  | signal (name : String)
  deriving DecidableEq

/-- What a diagnosis rests on. -/
@[ext] structure Symptoms where
  /-- The kind of crash. -/
  kind : String
  /-- Whether the stack of the crashed thread overflowed. -/
  overflow : Bool
  fault : Option FaultName
  /-- The faulting address. -/
  address : UInt64
  /-- The place of the crash in the application. -/
  symbol : String

/-! ## Where they are found -/

/-- The first member of a list that has a property, if any has it. -/
inductive IsFirst {α : Type} (p : α → Prop) (xs : List α) : Option α → Prop where
  | none : (∀ x ∈ xs, ¬ p x) → IsFirst p xs none
  | some {before after : List α} {x : α} : xs = before ++ x :: after → (∀ y ∈ before, ¬ p y) →
      p x → IsFirst p xs (some x)

theorem isFirst_iff_find? {α : Type} {p : α → Prop} {q : α → Bool} (hq : ∀ x, q x = true ↔ p x)
    {xs : List α} {found : Option α} : IsFirst p xs found ↔ xs.find? q = found := by
  constructor
  · intro h
    cases h with
    | none hnone => exact List.find?_eq_none.mpr fun x hx hqx => hnone x hx ((hq x).mp hqx)
    | @some before after x hsplit hbefore hx =>
        refine List.find?_eq_some_iff_append.mpr ⟨(hq x).mpr hx, before, after, hsplit, ?_⟩
        exact fun y hy => Bool.not_eq_true' _ ▸ Bool.eq_false_iff.mpr fun hqy => hbefore y hy ((hq y).mp hqy)
  · rintro rfl
    cases h : xs.find? q with
    | none => exact .none fun x hx hpx => List.find?_eq_none.mp h x hx ((hq x).mpr hpx)
    | some x =>
        obtain ⟨hqx, before, after, hsplit, hbefore⟩ := List.find?_eq_some_iff_append.mp h
        refine .some hsplit (fun y hy hpy => ?_) ((hq x).mp hqx)
        have hqy := hbefore y hy
        rw [(hq y).mpr hpy] at hqy
        cases hqy

/-- The name of a fault. The signal counts if the kernel has recorded no exception with a name. -/
inductive CrashError.Called (e : CrashError) : Option FaultName → Prop where
  | exception {mach : Mach} {name : String} : e.mach = some mach → mach.exceptionName = some name →
      Called e (some (.exception name))
  | signal {name : String} : (∀ mach, e.mach = some mach → mach.exceptionName = none) →
      e.signal.name = some name → Called e (some (.signal name))
  | unnamed : (∀ mach, e.mach = some mach → mach.exceptionName = none) → e.signal.name = none →
      Called e none

/-- The place of the crash of a process: the symbol of the first frame of the crashed thread that
belongs to the process. Later frames do not count if that one has no symbol. -/
inductive LocatedAt (process : String) : Option Thread → String → Prop where
  | nowhere : LocatedAt process none "Unknown"
  | foreign {t : Thread} :
      IsFirst (fun f : Frame => f.objectName = some process) t.backtrace.contents none →
      LocatedAt process (some t) "Unknown"
  | nameless {t : Thread} {f : Frame} :
      IsFirst (fun f : Frame => f.objectName = some process) t.backtrace.contents (some f) →
      f.symbolName = none → LocatedAt process (some t) "Unknown"
  | named {t : Thread} {f : Frame} {name : String} :
      IsFirst (fun f : Frame => f.objectName = some process) t.backtrace.contents (some f) →
      f.symbolName = some name → LocatedAt process (some t) name

/-- The report shows the symptoms. Of the threads, the first crashed one counts. -/
structure CrashReport.Shows (r : CrashReport) (x : Symptoms) : Prop where
  kind : x.kind = r.crash.error.kind
  address : x.address = r.crash.error.address
  fault : r.crash.error.Called x.fault
  crashed : ∃ thread, IsFirst (fun t : Thread => t.crashed = true) r.crash.threads thread ∧
    (x.overflow = true ↔
      ∃ t stack, thread = some t ∧ t.stack = some stack ∧ stack.overflow = true) ∧
    LocatedAt r.report.processName thread x.symbol

/-! ## The table -/

namespace Symptoms

/-- The fault is arithmetic. -/
def Arithmetic (x : Symptoms) : Prop :=
  x.fault = some (.exception "EXC_ARITHMETIC") ∨ x.fault = some (.signal "SIGFPE")

/-- The fault is an access to an invalid address. -/
def BadAccess (x : Symptoms) : Prop :=
  x.fault = some (.exception "EXC_BAD_ACCESS") ∨ x.fault = some (.signal "SIGSEGV")

/-- What the symptoms indicate, by the first rule that applies. -/
inductive Indicates (x : Symptoms) : Option String → Prop where
  | deadlock : x.kind = "deadlock" →
      Indicates x (some ("Main thread is deadlocked at " ++ x.symbol))
  | overflow : x.kind ≠ "deadlock" → x.overflow = true →
      Indicates x (some ("Stack overflow at " ++ x.symbol))
  | arithmetic : x.kind ≠ "deadlock" → x.overflow = false → x.Arithmetic →
      Indicates x (some ("Math error usually caused by division by 0, at " ++ x.symbol))
  | null : x.kind ≠ "deadlock" → x.overflow = false → x.BadAccess → x.address = 0 →
      Indicates x (some ("Attempted to reference null pointer at " ++ x.symbol))
  | garbage : x.kind ≠ "deadlock" → x.overflow = false → x.BadAccess → x.address ≠ 0 →
      Indicates x (some ("Attempted to reference garbage pointer " ++ toString x.address.toNat ++
        " at " ++ x.symbol))
  | unclear : x.kind ≠ "deadlock" → x.overflow = false → ¬ x.Arithmetic → ¬ x.BadAccess →
      Indicates x none

theorem not_arithmetic_of_badAccess {x : Symptoms} (h : x.BadAccess) : ¬ x.Arithmetic := by
  rintro (harith | harith) <;> rcases h with hbad | hbad <;> rw [harith] at hbad <;>
    exact absurd hbad (by decide)

/-- There is one diagnosis that symptoms indicate. -/
theorem Indicates.unique {x : Symptoms} {d d' : Option String} (h : x.Indicates d)
    (h' : x.Indicates d') : d = d' := by
  have hexclusive : x.BadAccess → ¬ x.Arithmetic := not_arithmetic_of_badAccess
  -- every rule excludes those before it, so that two that apply are one
  cases h <;> cases h' <;> grind

example : (⟨"mach", false, some (.exception "EXC_BAD_ACCESS"), 0x10, "crashNow"⟩ :
    Symptoms).Indicates (some "Attempted to reference garbage pointer 16 at crashNow") :=
  .garbage (by decide) rfl (.inl rfl) (by decide)

end Symptoms

/-! ## The diagnosis -/

/-- The name of a fault, if it has one. -/
def CrashError.called (e : CrashError) : Option FaultName :=
  match e.machExceptionName with
  | some name => some (.exception name)
  | none => e.signalName.map .signal

theorem CrashError.machExceptionName_eq_none {e : CrashError} :
    e.machExceptionName = none ↔ ∀ mach, e.mach = some mach → mach.exceptionName = none :=
  Option.bind_eq_none_iff

theorem CrashError.called_iff {e : CrashError} {name : Option FaultName} :
    e.Called name ↔ e.called = name := by
  unfold called
  constructor
  · intro h
    cases h with
    | exception hmach hname => rw [machExceptionName, hmach, Option.bind_some, hname]
    | signal hnone hname => rw [machExceptionName_eq_none.mpr hnone, signalName, hname]; rfl
    | unnamed hnone hname => rw [machExceptionName_eq_none.mpr hnone, signalName, hname]; rfl
  · rintro rfl
    cases hmach : e.machExceptionName with
    | some name =>
        obtain ⟨mach, hsome, hname⟩ := Option.bind_eq_some_iff.mp hmach
        exact .exception hsome hname
    | none =>
        have hnone := machExceptionName_eq_none.mp hmach
        cases hsignal : e.signalName with
        | some name => exact .signal hnone hsignal
        | none => exact .unnamed hnone hsignal

theorem CrashError.isFault_iff {e : CrashError} {exception signal : String} :
    e.isFault exception signal = true ↔
      e.called = some (.exception exception) ∨ e.called = some (.signal signal) := by
  unfold isFault called
  cases e.machExceptionName with
  | some name => simp
  | none => cases e.signalName <;> simp

namespace CrashReport

variable (r : CrashReport)

theorem isFirst_crashedThread {thread : Option Thread} :
    IsFirst (fun t : Thread => t.crashed = true) r.crash.threads thread ↔
      r.crashedThread = thread :=
  isFirst_iff_find? fun _ => Iff.rfl

theorem locatedAt_iff {name : String} :
    LocatedAt r.report.processName r.crashedThread name ↔ r.symbol = name := by
  unfold symbol firstAppFrame
  have hfirst : ∀ {t : Thread} {f : Option Frame},
      IsFirst (fun f : Frame => f.objectName = some r.report.processName) t.backtrace.contents f ↔
        t.backtrace.contents.find? (fun f => f.objectName == some r.processName) = f :=
    isFirst_iff_find? fun _ => beq_iff_eq
  cases r.crashedThread with
  | none =>
      constructor
      · rintro ⟨⟩
        rfl
      · rintro rfl
        exact .nowhere
  | some t =>
      rw [Option.bind_some]
      constructor
      · intro h
        cases h with
        | foreign hnone => rw [hfirst.mp hnone]; rfl
        | nameless hf hname => rw [hfirst.mp hf, Option.bind_some, hname]; rfl
        | named hf hname => rw [hfirst.mp hf, Option.bind_some, hname]; rfl
      · rintro rfl
        cases hf : t.backtrace.contents.find? (fun f => f.objectName == some r.processName) with
        | none => exact .foreign (hfirst.mpr hf)
        | some f =>
            cases hname : f.symbolName with
            | none => rw [Option.bind_some, hname]; exact .nameless (hfirst.mpr hf) hname
            | some name => rw [Option.bind_some, hname]; exact .named (hfirst.mpr hf) hname

/-- The first of the crashed threads counts, whatever stands behind it. -/
theorem crashedThread_of_split {before after : List Thread} {t : Thread}
    (hsplit : r.crash.threads = before ++ t :: after) (hcrashed : t.crashed = true)
    (hbefore : ∀ u ∈ before, u.crashed = false) : r.crashedThread = some t := by
  refine r.isFirst_crashedThread.mp (.some hsplit (fun u hu => ?_) hcrashed)
  rw [hbefore u hu]
  exact Bool.false_ne_true

/-- What the report shows. -/
def symptoms : Symptoms where
  kind := r.crash.error.kind
  overflow := r.crashedThread.any (·.isStackOverflow)
  fault := r.crash.error.called
  address := r.crash.error.address
  symbol := r.symbol

/-- Symptoms come from the error, the crashed thread and the name of the process. -/
theorem symptoms_congr {r r' : CrashReport} (hkind : r'.crash.error.kind = r.crash.error.kind)
    (haddress : r'.crash.error.address = r.crash.error.address)
    (hcalled : r'.crash.error.called = r.crash.error.called)
    (hthread : r'.crashedThread = r.crashedThread) (hprocess : r'.processName = r.processName) :
    r'.symptoms = r.symptoms := by
  have hsymbol : r'.symbol = r.symbol := by
    unfold symbol firstAppFrame
    rw [hthread, hprocess]
  unfold symptoms
  rw [hkind, haddress, hcalled, hthread, hsymbol]

theorem overflow_symptoms : r.symptoms.overflow = true ↔
    ∃ t stack, r.crashedThread = some t ∧ t.stack = some stack ∧ stack.overflow = true := by
  simp only [symptoms, Thread.isStackOverflow, Option.any_eq_true, exists_and_left]

/-- **A report shows symptoms of one kind.** -/
theorem shows_iff {x : Symptoms} : r.Shows x ↔ r.symptoms = x := by
  constructor
  · rintro ⟨hkind, haddress, hfault, thread, hthread, hoverflow, hsymbol⟩
    obtain rfl := r.isFirst_crashedThread.mp hthread
    have hsame : r.symptoms.overflow = x.overflow :=
      Bool.eq_iff_iff.mpr (r.overflow_symptoms.trans hoverflow.symm)
    exact Symptoms.ext hkind.symm hsame (CrashError.called_iff.mp hfault) haddress.symm
      (r.locatedAt_iff.mp hsymbol)
  · rintro rfl
    exact ⟨rfl, rfl, CrashError.called_iff.mpr rfl, _, r.isFirst_crashedThread.mpr rfl,
      r.overflow_symptoms, r.locatedAt_iff.mpr rfl⟩

theorem indicates_diagnose : r.symptoms.Indicates r.diagnose := by
  have harith : r.crash.error.isFault "EXC_ARITHMETIC" "SIGFPE" = true ↔ r.symptoms.Arithmetic :=
    CrashError.isFault_iff
  have hbad : r.crash.error.isFault "EXC_BAD_ACCESS" "SIGSEGV" = true ↔ r.symptoms.BadAccess :=
    CrashError.isFault_iff
  unfold diagnose
  dsimp only
  split_ifs with hkind hoverflow hmath haccess hnull
  · exact .deadlock hkind
  · exact .overflow hkind hoverflow
  · exact .arithmetic hkind (Bool.eq_false_iff.mpr hoverflow) (harith.mp hmath)
  · exact .null hkind (Bool.eq_false_iff.mpr hoverflow) (hbad.mp haccess) hnull
  · exact .garbage hkind (Bool.eq_false_iff.mpr hoverflow) (hbad.mp haccess) hnull
  · exact .unclear hkind (Bool.eq_false_iff.mpr hoverflow) (mt harith.mpr hmath)
      (mt hbad.mpr haccess)

/-- The diagnosis is the one that the table gives. -/
theorem diagnose_iff_indicates {x : Symptoms} (h : r.Shows x) {d : Option String} :
    r.diagnose = d ↔ x.Indicates d := by
  obtain rfl := r.shows_iff.mp h
  refine ⟨?_, fun hd => r.indicates_diagnose.unique hd⟩
  rintro rfl
  exact r.indicates_diagnose

/-! ## At the top -/

/-- **A diagnosis is made by the table of the rules and rests on nothing but the symptoms.** A report
shows symptoms of one kind, what they indicate is the diagnosis, and every report that shows the same
is given the same diagnosis. So the other threads have no say in it, even if they are marked as crashed
behind the first one, nor has the signal beside an exception with a name. -/
theorem diagnose_by_symptoms : ∃ x, r.Shows x ∧ (∀ y, r.Shows y → y = x) ∧
    (∀ d, r.diagnose = d ↔ x.Indicates d) ∧
    (∀ r' : CrashReport, r'.Shows x → r'.diagnose = r.diagnose) ∧
    (∀ t before after before' after', r.crash.threads = before ++ t :: after → t.crashed = true →
      (∀ u ∈ before, u.crashed = false) → (∀ u ∈ before', u.crashed = false) →
      diagnose { r with crash := { r.crash with threads := before' ++ t :: after' } } =
        r.diagnose) ∧
    (∀ name signal, r.crash.error.machExceptionName = some name →
      diagnose (r.withError { r.crash.error with signal }) = r.diagnose) := by
  have hshows : r.Shows r.symptoms := r.shows_iff.mpr rfl
  have hsame : ∀ r' : CrashReport, r'.symptoms = r.symptoms → r'.diagnose = r.diagnose :=
    fun r' h => (r'.diagnose_iff_indicates (r'.shows_iff.mpr h)).mpr r.indicates_diagnose
  refine ⟨r.symptoms, hshows, fun y hy => (r.shows_iff.mp hy).symm,
    fun d => r.diagnose_iff_indicates hshows, fun r' h => hsame r' (r'.shows_iff.mp h), ?_, ?_⟩
  · intro t before after before' after' hsplit hcrashed hbefore hbefore'
    have hthread := r.crashedThread_of_split hsplit hcrashed hbefore
    have hthread' := crashedThread_of_split
      { r with crash := { r.crash with threads := before' ++ t :: after' } } rfl hcrashed hbefore'
    rw [← hthread] at hthread'
    exact hsame _ (symptoms_congr rfl rfl rfl hthread' rfl)
  · intro name signal hname
    have hcalled : CrashError.called { r.crash.error with signal } = r.crash.error.called := by
      have hname' : CrashError.machExceptionName { r.crash.error with signal } = some name := hname
      unfold CrashError.called
      rw [hname, hname']
    exact hsame _ (symptoms_congr rfl rfl hcalled rfl rfl)

end CrashReport

end CrashCourier
