import CrashCourier.Proofs.Json.Document
import CrashCourier.Report.Diagnosis

/-!
# Reports written and read

A report that was read, and then changed as an application changes reports, is written and read again
as it is. What carries this through is soundness: a report that was read is sound, and a change puts
in only what was read or what has no other members at all, so the report stays sound
(`Edit.sound_apply`, `sound_edited`).

Two things are asked of the report as it stands after the changes, and both are needed. The reader
refuses what is nested too deep, and it need not read the text of a number with a fraction as that
number.
-/

namespace CrashCourier

open Json

/-! ## Soundness part by part -/

namespace Thread

variable {t : Thread}

theorem sound_frames (h : Record.Sound t) : ∀ f ∈ t.backtrace.contents, Record.Sound f := by
  obtain ⟨⟨⟨⟨hframes, _⟩, _⟩, _⟩, _⟩ := h
  intro f hf
  exact hframes f.held (List.mem_map_of_mem hf)

theorem sound_replace (h : Record.Sound t) {frames : List Frame}
    (hframes : ∀ f ∈ frames, Record.Sound f) :
    Record.Sound { t with backtrace := t.backtrace.replace frames } := by
  obtain ⟨⟨⟨⟨_, hskipped⟩, hother⟩, hrest⟩, hextra⟩ := h
  refine ⟨⟨⟨⟨fun held hheld => ?_, hskipped⟩, hother⟩, hrest⟩, hextra⟩
  obtain ⟨f, hf, rfl⟩ := List.mem_map.mp hheld
  exact hframes f hf

theorem sound_crashed (h : Record.Sound t) (crashed : Bool) : Record.Sound { t with crashed } := by
  obtain ⟨⟨hbacktrace, _, hrest⟩, hextra⟩ := h
  exact ⟨⟨hbacktrace, trivial, hrest⟩, hextra⟩

theorem sound_overflow (h : Record.Sound t) (overflow : Bool) :
    Record.Sound ({ t with stack := t.stack.map ({ · with overflow }) } : Thread) := by
  obtain ⟨⟨hbacktrace, hcrashed, hcurrent, hindex, hregisters, hstack, hname⟩, hextra⟩ := h
  refine ⟨⟨hbacktrace, hcrashed, hcurrent, hindex, hregisters, fun held hheld => ?_, hname⟩,
    hextra⟩
  obtain ⟨s', hs', rfl⟩ := Option.map_eq_some_iff.mp hheld
  obtain ⟨s, hs, rfl⟩ := Option.map_eq_some_iff.mp hs'
  obtain ⟨⟨hcontents, hend, hstart, hgrow, _, hpointer⟩, hother⟩ :=
    hstack s.held (Option.map_eq_some_iff.mpr ⟨s, hs, rfl⟩)
  exact ⟨⟨hcontents, hend, hstart, hgrow, trivial, hpointer⟩, hother⟩

end Thread

namespace Crash

variable {c : Crash}

theorem sound_error (h : Record.Sound c) : Record.Sound c.error := by
  obtain ⟨⟨herror, _⟩, _⟩ := h
  exact herror

theorem sound_threads (h : Record.Sound c) : ∀ t ∈ c.threads, Record.Sound t := by
  obtain ⟨⟨_, hthreads, _⟩, _⟩ := h
  intro t ht
  exact hthreads t.held (List.mem_map_of_mem ht)

theorem sound_withError (h : Record.Sound c) {error : CrashError} (herror : Record.Sound error) :
    Record.Sound { c with error } := by
  obtain ⟨⟨_, hrest⟩, hextra⟩ := h
  exact ⟨⟨herror, hrest⟩, hextra⟩

theorem sound_withThreads (h : Record.Sound c) {threads : List Thread}
    (hthreads : ∀ t ∈ threads, Record.Sound t) : Record.Sound { c with threads } := by
  obtain ⟨⟨herror, _, hrest⟩, hextra⟩ := h
  refine ⟨⟨herror, fun held hheld => ?_, hrest⟩, hextra⟩
  obtain ⟨t, ht, rfl⟩ := List.mem_map.mp hheld
  exact hthreads t ht

theorem sound_withDiagnosis (h : Record.Sound c) (diagnosis : Option String) :
    Record.Sound { c with diagnosis } := by
  obtain ⟨⟨herror, hthreads, _, hrest⟩, hextra⟩ := h
  exact ⟨⟨herror, hthreads, fun _ _ => trivial, hrest⟩, hextra⟩

end Crash

namespace CrashReport

variable {r : CrashReport}

theorem sound_crash (h : Record.Sound r) : Record.Sound r.crash := by
  obtain ⟨⟨_, hcrash, _⟩, _⟩ := h
  exact hcrash

theorem sound_withCrash (h : Record.Sound r) {crash : Crash} (hcrash : Record.Sound crash) :
    Record.Sound { r with crash } := by
  obtain ⟨⟨himages, _, hrest⟩, hextra⟩ := h
  exact ⟨⟨himages, hcrash, hrest⟩, hextra⟩

theorem sound_withProcessName (h : Record.Sound r) (name : String) :
    Record.Sound (r.withProcessName name) := by
  obtain ⟨⟨himages, hcrash, hdebug, hprocess, hreport, hrest⟩, hextra⟩ := h
  -- only the name goes, and any text is sound
  obtain ⟨⟨hid, _, hkind⟩, hother⟩ := hreport
  exact ⟨⟨himages, hcrash, hdebug, hprocess, ⟨⟨hid, trivial, hkind⟩, hother⟩, hrest⟩, hextra⟩

/-- A thread is what it was, or it is the one that was changed. -/
theorem mem_modify {α : Type} {as : List α} {position : Nat} {change : α → α} {a : α}
    (h : a ∈ as.modify position change) : a ∈ as ∨ ∃ b ∈ as, a = change b := by
  obtain ⟨i, hi, rfl⟩ := List.getElem_of_mem h
  rw [List.length_modify] at hi
  rw [List.getElem_modify]
  by_cases hp : position = i
  · rw [if_pos hp]
    exact .inr ⟨as[i], List.getElem_mem hi, rfl⟩
  · rw [if_neg hp]
    exact .inl (List.getElem_mem hi)

theorem sound_modifyThread (h : Record.Sound r) {position : Nat} {change : Thread → Thread}
    (hchange : ∀ {t}, Record.Sound t → Record.Sound (change t)) :
    Record.Sound (r.modifyThread position change) := by
  have hcrash := sound_crash h
  refine sound_withCrash h (Crash.sound_withThreads hcrash fun t ht => ?_)
  rcases mem_modify ht with ht | ⟨s, hs, rfl⟩
  · exact Crash.sound_threads hcrash t ht
  · exact hchange (Crash.sound_threads hcrash s hs)

theorem sound_decode {record : Bytes} {r : CrashReport} (h : decode record = .ok r) :
    Record.Sound r :=
  Record.sound_ofBytes h

end CrashReport

/-! ## What was read -/

/-- The frame was read: alone, in an array of frames, or in a report. -/
inductive Frame.Read (f : Frame) : Prop where
  | alone {input : Bytes} : Record.ofBytes input = .ok f → f.Read
  | listed {input : Bytes} {frames : List Frame} :
      Record.listOfBytes input = .ok frames → f ∈ frames → f.Read
  | reported {record : Bytes} {r : CrashReport} {t : Thread} :
      CrashReport.decode record = .ok r → t ∈ r.crash.threads → f ∈ t.backtrace.contents → f.Read

/-- The error was read: alone or in a report. -/
inductive CrashError.Read (e : CrashError) : Prop where
  | alone {input : Bytes} : Record.ofBytes input = .ok e → e.Read
  | reported {record : Bytes} {r : CrashReport} :
      CrashReport.decode record = .ok r → e = r.crash.error → e.Read

theorem Frame.Read.sound {f : Frame} (h : f.Read) : Record.Sound f := by
  cases h with
  | alone hread => exact Record.sound_ofBytes hread
  | listed hread hf => exact Record.sound_listOfBytes hread f hf
  | reported hread ht hf =>
      have hcrash := CrashReport.sound_crash (CrashReport.sound_decode hread)
      exact Thread.sound_frames (Crash.sound_threads hcrash _ ht) f hf

theorem CrashError.Read.sound {e : CrashError} (h : e.Read) : Record.Sound e := by
  cases h with
  | alone hread => exact Record.sound_ofBytes hread
  | reported hread he =>
      rw [he]
      exact Crash.sound_error (CrashReport.sound_crash (CrashReport.sound_decode hread))

/-! ## Changes -/

namespace CrashReport

/-- One change to a report. -/
inductive Edit where
  | diagnosis (diagnosis : Option String)
  | diagnose (doctor : Doctor)
  | processName (name : String)
  | error (error : CrashError)
  | frames (position : Nat) (frames : List Frame)
  | crashed (position : Nat) (crashed : Bool)
  | overflow (position : Nat) (overflow : Bool)

namespace Edit

/-- The report with the change made. -/
def apply : Edit → CrashReport → CrashReport
  | diagnosis d, r => r.withDiagnosis d
  | diagnose doctor, r => r.diagnosed doctor
  | processName name, r => r.withProcessName name
  | error e, r => r.withError e
  | frames position fs, r => r.replaceFrames position fs
  | crashed position b, r => r.setCrashed position b
  | overflow position b, r => r.setOverflow position b

/-- What the change puts in was read, if it is an error or frames. -/
def Read : Edit → Prop
  | error e => e.Read
  | frames _ fs => ∀ f ∈ fs, f.Read
  | _ => True

/-- **A change leaves the report sound.** -/
theorem sound_apply {edit : Edit} (hedit : edit.Read) {r : CrashReport} (h : Record.Sound r) :
    Record.Sound (edit.apply r) := by
  have hcrash := sound_crash h
  cases edit with
  | diagnosis d => exact sound_withCrash h (Crash.sound_withDiagnosis hcrash d)
  | diagnose doctor => exact sound_withCrash h (Crash.sound_withDiagnosis hcrash (doctor r))
  | processName name => exact sound_withProcessName h name
  | error e => exact sound_withCrash h (Crash.sound_withError hcrash hedit.sound)
  | frames position fs =>
      exact sound_modifyThread h fun ht => Thread.sound_replace ht fun f hf => (hedit f hf).sound
  | crashed position b => exact sound_modifyThread h fun ht => Thread.sound_crashed ht b
  | overflow position b => exact sound_modifyThread h fun ht => Thread.sound_overflow ht b

end Edit

/-- The report with changes made, one after the other. -/
def edited (r : CrashReport) (edits : List Edit) : CrashReport :=
  edits.foldl (fun r edit => edit.apply r) r

theorem sound_edited {edits : List Edit} (hedits : ∀ edit ∈ edits, edit.Read) {r : CrashReport}
    (h : Record.Sound r) : Record.Sound (r.edited edits) := by
  induction edits generalizing r with
  | nil => exact h
  | cons edit edits ih =>
      have hfirst := Edit.sound_apply (hedits edit List.mem_cons_self) h
      exact ih (fun e he => hedits e (List.mem_cons_of_mem _ he)) hfirst

/-! ## Reading back -/

/-- In every part of a report the names differ. -/
theorem shape_distinct : CrashReport.shape.distinct = true := by
  decide

/-- The tree that is written of a report. -/
def document (r : CrashReport) : Value :=
  Record.document r

theorem encode_eq_write (r : CrashReport) : encode r = r.document.write :=
  write_eq_toValue CrashReport.shape r.held

/-- **A sound report is read as it was written.** -/
theorem decode_encode_of_sound {r : CrashReport} (h : Record.Sound r)
    (hdepth : r.document.depth ≤ greatestDepth) (hreals : ∀ x ∈ r.document.reals, x.ReadsBack) :
    decode (encode r) = .ok r :=
  Record.ofBytes_toBytes shape_distinct h hdepth hreals

/-! ### Reports with an identifier only -/

/-- A report in which nothing but its identifier is filled in. -/
def bare (id : String) : CrashReport where
  binaryImages := []
  crash :=
    { error := ⟨0, none, ⟨0, none, none, 0, []⟩, "", none, []⟩
      threads := []
      diagnosis := none
      extra := [] }
  debug := none
  process := none
  report := ⟨id, "", "", "", []⟩
  system :=
    { bundleExecutable := "", bundleExecutablePath := "", bundleIdentifier := "", bundleName := "",
      bundleShortVersion := "", bundleVersion := "", appUuid := "",
      applicationStats := ⟨.zero false, .zero false, false, false, .zero false, .zero false,
        0, 0, 0, []⟩,
      binaryCpuSubtype := 0, binaryCpuType := 0, buildType := "", cpuArch := "", cpuSubtype := 0,
      cpuType := 0, deviceAppHash := "", jailbroken := false, kernelVersion := "", machine := "",
      memory := ⟨0, 0, 0, []⟩, model := "", osVersion := "", parentProcessId := 0, processId := 0,
      processName := "", storage := 0, systemName := "", systemVersion := "", timeZone := "",
      extra := [] }
  user := none
  extra := []

theorem readsBack_zero : (Binary64.zero false).ReadsBack := by
  unfold Binary64.ReadsBack Reader.Gives
  rfl

theorem readsBack_of_zeros {xs : List Binary64} {count : Nat}
    (h : xs = List.replicate count (Binary64.zero false)) : ∀ x ∈ xs, x.ReadsBack := by
  intro x hx
  rw [h] at hx
  rw [List.eq_of_mem_replicate hx]
  exact readsBack_zero

theorem sound_bare (id : String) : Record.Sound (bare id) := by
  repeat' apply And.intro
  -- nothing is held that could be unsound: no other members, and nothing optional or in lists
  all_goals first
    | exact trivial
    | exact Members.other_nil _
    | exact fun _ h => nomatch h

theorem depth_bare (id : String) : (bare id).document.depth = 4 := by
  rfl

theorem reals_bare (id : String) :
    (bare id).document.reals = List.replicate 4 (Binary64.zero false) := by
  rfl

/-- Such a report is read as it was written, whatever its identifier. -/
theorem decode_encode_bare (id : String) : decode (encode (bare id)) = .ok (bare id) := by
  have hdepth : (bare id).document.depth ≤ greatestDepth := by
    rw [depth_bare]
    decide
  exact decode_encode_of_sound (sound_bare id) hdepth (readsBack_of_zeros (reals_bare id))

/-! ### Reports that were changed -/

/-- **A report that was read and changed is read again as it was written.** -/
theorem decode_encode {record : Bytes} {r : CrashReport} (h : decode record = .ok r)
    {edits : List Edit} (hedits : ∀ edit ∈ edits, edit.Read)
    (hdepth : (r.edited edits).document.depth ≤ greatestDepth)
    (hreals : ∀ x ∈ (r.edited edits).document.reals, x.ReadsBack) :
    ∃ r', decode (encode (r.edited edits)) = .ok r' ∧ r'.same (r.edited edits) = true := by
  have hsound := sound_edited hedits (sound_decode h)
  exact ⟨r.edited edits, decode_encode_of_sound hsound hdepth hreals, Record.same_self hsound⟩

/-- A signal with a member that is not modelled. -/
def segv : CrashError :=
  ⟨0, none, ⟨0, none, none, 11, [("x", .list [])]⟩, "signal", none, []⟩

theorem read_segv : segv.Read := by
  have hread : Record.ofBytes (octets
      "\x7b\"type\":\"signal\",\"signal\":\x7b\"code\":0,\"x\":[],\"signal\":11\x7d,\"address\":0\x7d") =
      .ok segv := by
    rfl
  exact .alone hread

/-- A report that was given another error, another process name and a diagnosis. -/
theorem bare_edited_read_back :
    ∃ r', decode (encode ((bare "r").edited
        [.error segv, .processName "app", .diagnose diagnose])) = .ok r' ∧
      r'.same ((bare "r").edited [.error segv, .processName "app", .diagnose diagnose]) = true := by
  refine decode_encode (decode_encode_bare "r") ?_ (by decide) fun x hx => ?_
  · intro edit hedit
    rcases List.mem_cons.mp hedit with rfl | hedit
    · exact read_segv
    · rcases List.mem_cons.mp hedit with rfl | hedit
      · exact trivial
      · rw [List.mem_singleton.mp hedit]
        exact trivial
  · have hreals : ((bare "r").edited
        [.error segv, .processName "app", .diagnose diagnose]).document.reals =
        List.replicate 4 (Binary64.zero false) := by
      rfl
    rw [hreals] at hx
    rw [List.eq_of_mem_replicate hx]
    exact readsBack_zero

end CrashReport

end CrashCourier
