import CrashCourier.Proofs.Json.Reread
import CrashCourier.Proofs.Report.Diagnosis
import CrashCourier.Proofs.Report.Roundtrip

/-!
# What diagnosing changes on the wire

A diagnosis is an optional member of the crash, and the named members of a crash come in a fixed order.
So the text of a report is the same up to the threads and the same from there on, whatever diagnosis it
carries, and the diagnosis is what stands between (`encode_withDiagnosis`).

The tree of a report shows why (`document_withDiagnosis`): it is the same but for one member. That
member is a text, which is nested no deeper than anything else and holds no number, so that a report
that was read is read again after it has been diagnosed.
-/

namespace CrashCourier.CrashReport

open Json

variable (r : CrashReport)

/-! ## The tree around a diagnosis -/

/-- A diagnosis as a member of the crash. -/
def diagnosisMember (d : Option String) : Members :=
  Presence.toMembers "diagnosis" Value.text .optional d

/-- The members that stand behind the crash. -/
def behindCrash : Members :=
  Fields.toMembers (.may "debug" .table <| .may "process" .table <| .need "report" Identity.shape <|
      .need "system" System.shape <| .may "user" .table <| .nil)
    (r.debug, r.process, r.report.held, r.system.held, r.user, ()) ++ r.extra

/-- The diagnosis is the one member in which a tree differs. -/
theorem document_withDiagnosis (d : Option String) : (r.withDiagnosis d).document =
    .object (("binary_images", .list (r.binaryImages.map Record.document)) ::
      ("crash", .object (("error", Record.document r.crash.error) ::
        ("threads", .list (r.crash.threads.map Record.document)) ::
        (diagnosisMember d ++ r.crash.extra))) :: r.behindCrash) := by
  have himages : r.binaryImages.map Record.document =
      (r.binaryImages.map BinaryImage.held).map BinaryImage.shape.toValue := List.map_map.symm
  have hthreads : r.crash.threads.map Record.document =
      (r.crash.threads.map Thread.held).map Thread.shape.toValue := List.map_map.symm
  rw [himages, hthreads]
  cases d with
  | none => rfl
  | some d => rfl

/-! ## The text around a diagnosis -/

/-- What is written before the diagnosis: the images, and of the crash the error and the threads. -/
def beforeDiagnosis : Bytes :=
  octets "\x7b\"binary_images\":" ++ writeList (r.binaryImages.map Record.toBytes) ++
    octets ",\"crash\":\x7b\"error\":" ++ Record.toBytes r.crash.error ++
    octets ",\"threads\":" ++ writeList (r.crash.threads.map Record.toBytes)

/-- A diagnosis as it is written behind another member. -/
def diagnosisText : Option String → Bytes
  | none => []
  | some d => octets ",\"diagnosis\":" ++ writeString d

/-- What is written behind the diagnosis: the other members of the crash, and of the report. -/
def behindDiagnosis : Bytes :=
  following (writeMembers r.crash.extra) ++ 0x7D ::
    (following (writeMembers r.behindCrash) ++ [0x7D])

theorem following_diagnosisMember (d : Option String) (ms : Members) :
    following (writeMembers (diagnosisMember d ++ ms)) =
      diagnosisText d ++ following (writeMembers ms) := by
  cases d with
  | none => rfl
  | some d => exact following_writeMembers_cons "diagnosis" (.text d) ms

/-- **A diagnosis is inserted behind the threads**, and nothing else in the text depends on it. -/
theorem encode_withDiagnosis (d : Option String) :
    encode (r.withDiagnosis d) = r.beforeDiagnosis ++ diagnosisText d ++ r.behindDiagnosis := by
  have himages (text : Bytes) :
      0x7B :: writeMember "binary_images" text = octets "\x7b\"binary_images\":" ++ text := by
    rfl
  have hcrash (text : Bytes) :
      0x2C :: writeMember "crash" (0x7B :: writeMember "error" text) =
        octets ",\"crash\":\x7b\"error\":" ++ text := by
    rfl
  have hthreads (text : Bytes) :
      0x2C :: writeMember "threads" text = octets ",\"threads\":" ++ text := by
    rfl
  rw [encode_eq_write, document_withDiagnosis, write_object_cons, following_writeMembers_cons,
    write_object_cons, following_writeMembers_cons, following_diagnosisMember,
    Record.write_documents, Record.write_documents, Record.write_document]
  -- the same pieces on both sides, in other brackets
  simp only [beforeDiagnosis, behindDiagnosis, ← himages, ← hcrash, ← hthreads, writeMember,
    List.append_assoc, List.cons_append, List.nil_append]

/-! ## A diagnosed report read again -/

theorem depthMembers_diagnosisMember (d : Option String) (ms : Members) :
    depthMembers (diagnosisMember d ++ ms) = depthMembers ms := by
  cases d with
  | none => rfl
  | some d => exact Nat.zero_max _

theorem realsOfMembers_diagnosisMember (d : Option String) (ms : Members) :
    realsOfMembers (diagnosisMember d ++ ms) = realsOfMembers ms := by
  cases d with
  | none => rfl
  | some d => rfl

theorem depth_withDiagnosis (d d' : Option String) :
    (r.withDiagnosis d).document.depth = (r.withDiagnosis d').document.depth := by
  simp only [document_withDiagnosis, Value.depth, depthMembers, depthMembers_diagnosisMember]

theorem reals_withDiagnosis (d d' : Option String) :
    (r.withDiagnosis d).document.reals = (r.withDiagnosis d').document.reals := by
  simp only [document_withDiagnosis, Value.reals, realsOfMembers, realsOfMembers_diagnosisMember]

/-- A diagnosis does not look at the diagnosis that is there. -/
theorem diagnose_withDiagnosis (d : Option String) : diagnose (r.withDiagnosis d) = diagnose r :=
  rfl

theorem diagnosed_diagnosed :
    (r.diagnosed diagnose).diagnosed diagnose = r.diagnosed diagnose := by
  rw [diagnosed, diagnosed, diagnose_withDiagnosis]
  rfl

variable {r}

theorem sound_diagnosed (h : Record.Sound r) (doctor : Doctor) :
    Record.Sound (r.diagnosed doctor) :=
  sound_withCrash h (Crash.sound_withDiagnosis (sound_crash h) (doctor r))

/-- A report that was read is read again after it has been diagnosed. -/
theorem decode_encode_diagnosed {record : Bytes} (h : decode record = .ok r)
    (hreals : ∀ x ∈ r.document.reals, x.ReadsBack) (doctor : Doctor) :
    decode (encode (r.diagnosed doctor)) = .ok (r.diagnosed doctor) := by
  obtain ⟨_, _, _, hdepth⟩ := Record.document_ofBytes h
  have hdepth' : (r.diagnosed doctor).document.depth ≤ greatestDepth :=
    Nat.le_trans (Nat.le_of_eq (r.depth_withDiagnosis (doctor r) r.crash.diagnosis)) hdepth
  have hreals' : (r.diagnosed doctor).document.reals = r.document.reals :=
    r.reals_withDiagnosis (doctor r) r.crash.diagnosis
  exact decode_encode_of_sound (sound_diagnosed (sound_decode h) doctor) hdepth' (hreals' ▸ hreals)

/-- **Diagnosing changes one member on the wire.** The diagnosis is inserted into the text without
one, right behind the threads and as a JSON string, or nothing is; the diagnosis that was there is
gone. Diagnosing a second time changes
nothing, and whoever reads the text finds the diagnosis and comes to the same one. -/
theorem encode_diagnosed {record : Bytes} (h : decode record = .ok r) :
    encode r = r.beforeDiagnosis ++ diagnosisText r.diagnosis ++ r.behindDiagnosis ∧
      encode (r.withDiagnosis none) = r.beforeDiagnosis ++ r.behindDiagnosis ∧
      encode (r.diagnosed diagnose) =
        r.beforeDiagnosis ++ diagnosisText (diagnose r) ++ r.behindDiagnosis ∧
      (∀ d, Value.ofBytes (writeString d) = .ok (.text d)) ∧
      (r.diagnosed diagnose).diagnosed diagnose = r.diagnosed diagnose ∧
      ((r.diagnosed diagnose).diagnosed diagnose).same (r.diagnosed diagnose) = true ∧
      ((∀ x ∈ r.document.reals, x.ReadsBack) →
        ∃ r', decode (encode (r.diagnosed diagnose)) = .ok r' ∧
          r'.diagnosis = diagnose r ∧ diagnose r' = diagnose r) := by
  have htwice := r.diagnosed_diagnosed
  refine ⟨r.encode_withDiagnosis r.diagnosis, ?_, r.encode_withDiagnosis (diagnose r), Value.ofBytes_writeString, htwice, ?_,
    fun hreals => ?_⟩
  · rw [encode_withDiagnosis, diagnosisText, List.append_nil]
  · rw [htwice]
    exact Record.same_self (sound_diagnosed (sound_decode h) diagnose)
  · exact ⟨r.diagnosed diagnose, decode_encode_diagnosed h hreals diagnose, rfl,
      r.diagnose_withDiagnosis (diagnose r)⟩

/-- A null pointer as a signal. -/
def nullPointer : CrashError :=
  ⟨0, none, ⟨0, none, some "SIGSEGV", 11, []⟩, "signal", none, []⟩

theorem read_nullPointer : nullPointer.Read := by
  have hread : Record.ofBytes (octets
      "\x7b\"type\":\"signal\",\"signal\":\x7b\"code\":0,\"name\":\"SIGSEGV\",\"signal\":11\x7d,\"address\":0\x7d") =
      .ok nullPointer := by
    rfl
  exact .alone hread

/-- A report about it, with a diagnosis that is out of date. -/
def stale : CrashReport :=
  (bare "r").edited [.error nullPointer, .diagnosis (some "?")]

theorem reals_stale : ∀ x ∈ stale.document.reals, x.ReadsBack := by
  have hreals : stale.document.reals = List.replicate 4 (Binary64.zero false) := by
    rfl
  exact readsBack_of_zeros hreals

theorem decode_encode_stale : decode (encode stale) = .ok stale := by
  have hsound : Record.Sound stale :=
    sound_withCrash (sound_bare "r") (Crash.sound_withDiagnosis
      (Crash.sound_withError (sound_crash (sound_bare "r")) read_nullPointer.sound) (some "?"))
  exact decode_encode_of_sound hsound (by decide) reals_stale

/-- The old diagnosis is replaced, and the new one is what the text is read with. -/
theorem stale_replaced :
    encode (stale.diagnosed diagnose) = stale.beforeDiagnosis ++
        diagnosisText (some "Attempted to reference null pointer at Unknown") ++
        stale.behindDiagnosis ∧
      ∃ r', decode (encode (stale.diagnosed diagnose)) = .ok r' ∧
        r'.diagnosis = some "Attempted to reference null pointer at Unknown" ∧
        diagnose r' = some "Attempted to reference null pointer at Unknown" := by
  have hdiagnose : diagnose stale = some "Attempted to reference null pointer at Unknown" := by
    decide
  obtain ⟨_, _, hinserted, _, _, _, hread⟩ := encode_diagnosed decode_encode_stale
  rw [hdiagnose] at hinserted hread
  exact ⟨hinserted, hread reals_stale⟩

end CrashCourier.CrashReport
