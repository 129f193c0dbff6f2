import CrashCourier.Proofs.Binary64
import CrashCourier.Proofs.Json.Reread
import CrashCourier.Proofs.Report.Roundtrip

/-!
# Documents keep what they say

A report that is read from a document and written again says what the document said. Members that no
part of a report models come through, at any depth; named members come first and in their order; and
there are two changes in all, which `Shape.normal` makes. One of them touches numbers: where a time may
be given as a whole number, it is written as the binary64 number nearest to it. There are four such
places, and no number is nearer to the one that was given.
-/

namespace CrashCourier

namespace Json

/-! ## Numbers -/

/-- A number as a fraction. -/
def Number.value : Number → ℚ
  | .natural n => n.toNat
  | .negative n => -(n.magnitude : ℚ)
  | .real x => x.value

/-- **No binary64 number is nearer to a number than the nearest one.** -/
theorem Number.nearest_le (n : Number) (y : Binary64) :
    |n.nearest.value - n.value| ≤ |y.value - n.value| := by
  cases n with
  | natural n =>
      obtain ⟨x, hx, hsign, hbest⟩ := Binary64.nearest_ofRatio false n.toNat_lt
      have hnearest := Binary64.nearest_signed hbest y
      rw [hsign] at hnearest
      rw [Number.nearest, hx]
      exact hnearest
  | negative n =>
      have hlt : n.magnitude < 0x10000000000000000 := by
        have hle := n.magnitude_le
        unfold Negative.greatest at hle
        omega
      obtain ⟨x, hx, hsign, hbest⟩ := Binary64.nearest_ofRatio true hlt
      have hnearest := Binary64.nearest_signed hbest y
      rw [hsign] at hnearest
      rw [Number.nearest, hx]
      exact hnearest
  | real x =>
      rw [Number.nearest, Number.value, sub_self, abs_zero]
      exact abs_nonneg _

mutual

/-- Where in a value of a shape any number may stand, by the names on the way there. -/
def Shape.realPlaces : Shape → List (List String)
  | .real => [[]]
  | .list item => item.realPlaces
  | .record _ fields => fields.realPlaces
  | .text | .natural | .integer | .truth | .table | .counters => []

/-- The same for the named members of a record. -/
def Fields.realPlaces : Fields → List (List String)
  | .nil => []
  | .cons name _ shape rest => shape.realPlaces.map (name :: ·) ++ rest.realPlaces

end

end Json

open Json

namespace CrashReport

/-- **A document that was read and written again says what it said.** The new text is the value of the
old one, in normal form and arranged: nothing is lost, added or changed but the optional members that
are `null` and the numbers of the four times of `application_stats`, each of which becomes the number
nearest to it. In every record the named members come first, and other than in the order of members
the new value does not differ from the normal form. -/
theorem encode_decode {record : Bytes} {r : CrashReport} (h : decode record = .ok r)
    (hreals : ∀ x ∈ r.document.reals, x.ReadsBack) :
    ∃ v, Value.ofBytes record = .ok v ∧
      encode r = (shape.arranged (shape.normal v)).write ∧
      Value.ofBytes (encode r) = .ok (shape.arranged (shape.normal v)) ∧
      (shape.arranged (shape.normal v)).Alike (shape.normal v) ∧
      shape.realPlaces = [
        "active_time_since_last_crash", "active_time_since_launch",
        "background_time_since_last_crash", "background_time_since_launch"].map
          (["system", "application_stats", ·]) ∧
      ∀ (n : Number) (y : Binary64), |n.nearest.value - n.value| ≤ |y.value - n.value| := by
  obtain ⟨v, hv, hdocument, hagain⟩ := Record.toBytes_ofBytes shape_distinct h hreals
  have hwritten : encode r = (Record.document r).write := encode_eq_write r
  have hvalue : Value.ofBytes (encode r) = .ok (Record.document r) := hagain
  rw [hdocument] at hwritten hvalue
  exact ⟨v, hv, hwritten, hvalue, alike_arranged shape _, by decide, Number.nearest_le⟩

/-! ### A document with a bit of everything -/

/-- The members of what a record is written as. -/
def membersOf {α : Type} [Record α] (a : α) : Members :=
  (Record.document a).members?.getD []

/-- A document whose members are out of order, with one that is `null`, one that is not modelled and
comes twice, and a time that is a whole number. -/
def handwritten : Value :=
  let system := Members.set "application_stats"
    (.object (Members.set "active_time_since_launch" (.number (.natural 3))
      (membersOf (bare "r").system.applicationStats)))
    (membersOf (bare "r").system)
  .object [("user", .null), ("note", .text "old"), ("system", .object system),
    ("report", Record.document (bare "r").report), ("note", .list [.null]),
    ("crash", Record.document (bare "r").crash), ("binary_images", .list [])]

/-- The report that it is read as. -/
def handwrittenReport : CrashReport :=
  let stats := { (bare "r").system.applicationStats with
    activeTimeSinceLaunch := (Number.natural 3).nearest }
  { bare "r" with
    system := { (bare "r").system with applicationStats := stats }
    extra := [("note", .list [.null])] }

theorem readsBack_three : (Number.natural 3).nearest.ReadsBack := by
  unfold Binary64.ReadsBack Reader.Gives
  rfl

theorem reals_handwritten : ∀ x ∈ handwritten.reals, x.ReadsBack := by
  have hreals : handwritten.reals = List.replicate 3 (Binary64.zero false) := by rfl
  exact readsBack_of_zeros hreals

set_option maxRecDepth 4000 in
theorem decode_handwritten : decode handwritten.write = .ok handwrittenReport :=
  Record.ofBytes_write (a := handwrittenReport) (by rfl) (by decide) reals_handwritten

/-- The document is written again without the member that was `null`, with the last note and with a
time that has a fraction, and in order. -/
theorem encode_decode_handwritten :
    ∃ v, Value.ofBytes handwritten.write = .ok v ∧
      encode handwrittenReport = (shape.arranged (shape.normal v)).write ∧
      Value.ofBytes (encode handwrittenReport) = .ok (shape.arranged (shape.normal v)) ∧
      (shape.arranged (shape.normal v)).Alike (shape.normal v) := by
  have hreals : ∀ x ∈ handwrittenReport.document.reals, x.ReadsBack := by
    have hlist : handwrittenReport.document.reals = [.zero false, (Number.natural 3).nearest,
        .zero false, .zero false] := by rfl
    rw [hlist]
    simp only [List.forall_mem_cons, List.not_mem_nil, false_imp_iff, implies_true, and_true]
    exact ⟨readsBack_zero, readsBack_three, readsBack_zero, readsBack_zero⟩
  obtain ⟨v, hv, hwritten, hagain, halike, _⟩ := encode_decode decode_handwritten hreals
  exact ⟨v, hv, hwritten, hagain, halike⟩

end CrashReport

end CrashCourier
