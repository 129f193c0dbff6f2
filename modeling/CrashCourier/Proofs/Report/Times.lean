import CrashCourier.Proofs.Decimal.Exact
import CrashCourier.Proofs.Json.Echo
import CrashCourier.Proofs.Report.Preserved

/-!
# Times written and read

The times of a report are binary64 numbers. They are written with the shortest decimal that identifies
them, and a reader that rounds once would read each of them back. This one collects the digits, rounds
them, rounds a power of ten and rounds the result, so that some numbers become their neighbours.

A report is read again as itself but for its numbers, each of which is what its own text is read as
(`held_of_decode_encode`). So all times survive just in case each of them does (`survives_iff`), which they
do if they are plain.
-/

namespace CrashCourier.CrashReport

open Json

/-- The four times of the application. -/
def times (r : CrashReport) : List Binary64 :=
  let stats := r.system.applicationStats
  [stats.activeTimeSinceLastCrash, stats.activeTimeSinceLaunch,
    stats.backgroundTimeSinceLastCrash, stats.backgroundTimeSinceLaunch]

/-- The report is read again with its times, and with all binary64 numbers in the members that are not
modelled. -/
def Survives (r : CrashReport) : Prop :=
  ∃ r', decode (encode r) = .ok r' ∧ r'.times = r.times ∧ r'.document.reals = r.document.reals

variable {record : Bytes} {r r' : CrashReport}

/-- A report that was read is nested no deeper than a reader goes. -/
theorem depth_decode (h : decode record = .ok r) : r.document.depth ≤ greatestDepth := by
  obtain ⟨_, _, _, hdepth⟩ := Record.document_ofBytes h
  exact hdepth

/-- **What a report is read as again**: the same report with other numbers, if it is read. -/
theorem held_of_decode_encode (hr : Record.Sound r) (h : decode (encode r) = .ok r') :
    (∀ x ∈ r.document.reals, x.Readable) ∧ r'.held = shape.onReals Binary64.reread r.held := by
  obtain ⟨v, ⟨rest, hspells, _⟩, _, hof⟩ := Record.ofBytes_eq_ok_iff.mp h
  rw [encode_eq_write, ← List.append_nil r.document.write] at hspells
  obtain ⟨rfl, hreadable, _⟩ := spells_write r.document Reader.ends_nil hspells
  have htree : r.document.onReals Binary64.reread =
      shape.toValue (shape.onReals Binary64.reread r.held) := (toValue_onReals shape r.held).symm
  have hheld := ofValue_toValue shape shape_distinct (sound_onReals (f := Binary64.reread) shape hr)
  rw [htree] at hof
  exact ⟨hreadable, Option.some.inj (hof.symm.trans hheld)⟩

/-- Its numbers are what their texts are read as. -/
theorem reals_of_held (h : r'.held = shape.onReals Binary64.reread r.held) :
    r'.document.reals = r.document.reals.map Binary64.reread := by
  have hdocument : r'.document = r.document.onReals Binary64.reread := by
    show shape.toValue r'.held = _
    rw [h]
    exact toValue_onReals shape r.held
  rw [hdocument, reals_onReals]

/-- A report whose numbers are all read back survives as it is. -/
theorem survives_of_readsBack (h : decode record = .ok r) (hreals : ∀ x ∈ r.document.reals, x.ReadsBack) :
    r.Survives :=
  ⟨r, decode_encode_of_sound (sound_decode h) (depth_decode h) hreals, rfl, rfl⟩

/--
**The times of a report survive if and only if each of its binary64 numbers does.** A number does if the
digits that are collected from its shortest decimal, rounded and scaled by the rounded power of ten, are
its magnitude again.
-/
theorem survives_iff (h : decode record = .ok r) :
    r.Survives ↔ ∀ x ∈ r.document.reals, x.rescaled = .ok (x.withSign false) := by
  refine ⟨?_, ?_⟩
  · intro hsurvives x hx
    obtain ⟨r', hagain, _, hreals⟩ := hsurvives
    obtain ⟨hreadable, hheld⟩ := held_of_decode_encode (sound_decode h) hagain
    -- the numbers are the same one by one
    rw [reals_of_held hheld] at hreals
    have hsame : ∀ y ∈ r.document.reals, y.reread = y :=
      List.map_inj_left.mp (hreals.trans (List.map_id _).symm)
    exact (Binary64.readsBack_iff x).mp
      ((Binary64.readsBack_iff_reread x).mpr ⟨hreadable x hx, hsame x hx⟩)
  · intro hreals
    exact survives_of_readsBack h fun x hx => (Binary64.readsBack_iff x).mpr (hreals x hx)

/-- **Plain times survive.** -/
theorem survives_of_plain (h : decode record = .ok r) (hplain : ∀ x ∈ r.document.reals, x.Plain) :
    r.Survives :=
  survives_of_readsBack h fun x hx => Binary64.readsBack_of_plain (hplain x hx)

/-! ### A report with one time -/

/-- A report of an application that has been active for some time. -/
def timed (time : Binary64) : CrashReport :=
  let stats := { (bare "r").system.applicationStats with activeTimeSinceLaunch := time }
  { bare "r" with system := { (bare "r").system with applicationStats := stats } }

/-- A document of it, with the time as a whole number. -/
def wholeTime (n : UInt64) : Value :=
  let system := Members.set "application_stats"
    (.object (Members.set "active_time_since_launch" (.number (.natural n))
      (membersOf (bare "r").system.applicationStats)))
    (membersOf (bare "r").system)
  .object (Members.set "system" (.object system) (membersOf (bare "r")))

theorem reals_timed (time : Binary64) : (timed time).document.reals =
    [.zero false, time, .zero false, .zero false] := by
  rfl

theorem decode_wholeTime (n : UInt64) :
    decode (wholeTime n).write = .ok (timed (Number.natural n).nearest) := by
  have hreals : (wholeTime n).reals = List.replicate 3 (Binary64.zero false) := by rfl
  have hdepth : (wholeTime n).depth = 4 := by rfl
  exact Record.ofBytes_write (by rfl) (hdepth ▸ by decide) (readsBack_of_zeros hreals)

theorem rescaled_zero :
    (Binary64.zero false).rescaled = .ok ((Binary64.zero false).withSign false) :=
  (Binary64.readsBack_iff _).mp readsBack_zero

/-- Such a report survives just in case its time does. -/
theorem forall_reals_timed {time : Binary64} :
    (∀ x ∈ (timed time).document.reals, x.rescaled = .ok (x.withSign false)) ↔
      time.rescaled = .ok (time.withSign false) := by
  rw [reals_timed]
  simp only [List.forall_mem_cons, List.not_mem_nil, false_imp_iff, implies_true, and_true,
    rescaled_zero, true_and]

/-- Three seconds survive. -/
theorem three_survive : decode (wholeTime 3).write = .ok (timed (Number.natural 3).nearest) ∧
    (timed (Number.natural 3).nearest).Survives := by
  have hplain : (Number.natural 3).nearest.Plain := by decide +kernel
  refine ⟨decode_wholeTime 3, (survives_iff (decode_wholeTime 3)).mpr ?_⟩
  exact forall_reals_timed.mpr ((Binary64.readsBack_iff _).mp (Binary64.readsBack_of_plain hplain))

/-- A time of eight thousand million million seconds and four is read again as one second less. -/
theorem whole_time_lost : ∃ r, decode (wholeTime 8000000000000004).write = .ok r ∧ ¬ r.Survives ∧
    ∀ r', decode (encode r) = .ok r' → r'.document.reals =
      [.zero false, (Number.natural 8000000000000003).nearest, .zero false, .zero false] := by
  have hlost : (Number.natural 8000000000000004).nearest.reread =
      (Number.natural 8000000000000003).nearest := by decide +kernel
  have hzero : (Binary64.zero false).reread = .zero false := by decide +kernel
  have hdecode := decode_wholeTime 8000000000000004
  have hagain : ∀ r', decode (encode (timed (Number.natural 8000000000000004).nearest)) = .ok r' →
      r'.document.reals =
        [.zero false, (Number.natural 8000000000000003).nearest, .zero false, .zero false] := by
    intro r' h
    obtain ⟨_, hheld⟩ := held_of_decode_encode (sound_decode hdecode) h
    rw [reals_of_held hheld, reals_timed]
    simp only [List.map_cons, List.map_nil, hlost, hzero]
  refine ⟨_, hdecode, ?_, hagain⟩
  intro hsurvives
  obtain ⟨r', h, _, hreals⟩ := hsurvives
  rw [hagain r' h, reals_timed] at hreals
  have hsame : (Number.natural 8000000000000003).nearest = (Number.natural 8000000000000004).nearest :=
    (List.cons.inj (List.cons.inj hreals).2).1
  exact absurd hsame (by decide +kernel)

end CrashCourier.CrashReport
