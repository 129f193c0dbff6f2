import CrashCourier.Proofs.Json.Schema
import CrashCourier.Proofs.Report.Roundtrip

/-!
# Which documents are crash reports

The shape of a crash report is its schema, and a record is a crash report just in case it is the text
of one value that fits the schema. The reader goes through the octets once and never sees the value as
a whole; the theorem is about the whole value, and about each name in it by itself.

Three things say when octets are the text of a value at all: the grammar, which takes strings and
numerals as tokens, the range of numbers, and how deep arrays and objects may be nested. They are the
same for every reader of values, whether it knows a schema or not.
-/

namespace CrashCourier.CrashReport

open Json

/-- **A record is a crash report if and only if it is the text of a value that fits the schema**, and
what is read of it is what the schema holds of this value. It is the text of a value if it follows the
grammar, its numbers are in range and it is nested at most 127 deep; then it is the text of one value
only, and the reader without a schema takes it, too.

The schema asks of each modelled name that it comes once and with a value of its kind; an optional one
may be left out or be `null`. Where it asks for a whole number, the numeral has neither a fraction nor
an exponent and is not `-0`. It holds the values that are named, and of the other members each key in
its first place with its last value. -/
theorem decode_iff_fits (record : Bytes) :
    ((∃ r, decode record = .ok r) ↔
      ∃ v, TextOf record v ∧ v.depth ≤ greatestDepth ∧ shape.Fits v) ∧
    (∀ r, decode record = .ok r ↔
      ∃ v, TextOf record v ∧ v.depth ≤ greatestDepth ∧ shape.Holds v r.held) ∧
    (∀ w, Value.ofBytes record = .ok w ↔
      ∃ v, TextOf record v ∧ v.depth ≤ greatestDepth ∧ v.settled = w) ∧
    (∀ v w, TextOf record v → TextOf record w → v = w) ∧
    ∀ (numeral : Numeral) (z : Int), (∃ n, numeral.number = .ok n ∧ n.int? = some z) ↔
      numeral.fraction = none ∧ numeral.power = none ∧ numeral.int = z ∧
        ¬ (numeral.negative = true ∧ z = 0) ∧ -(2 ^ 63) ≤ z ∧ z < 2 ^ 64 := by
  refine ⟨?_, fun r => ?_, fun w => Value.ofBytes_eq_ok_iff, fun v w hv hw => hv.eq hw,
    fun numeral z => Numeral.int?_number⟩
  · exact Record.exists_ofBytes_iff_fits shape_distinct
  · exact Record.ofBytes_iff_holds shape_distinct

end CrashCourier.CrashReport
