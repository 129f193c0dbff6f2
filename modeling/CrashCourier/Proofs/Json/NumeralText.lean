import CrashCourier.Proofs.Json.Numeral
import Mathlib.Tactic.Ring

/-!
# Written numerals

A `NumeralText` is the text of a number that is not whole, in its parts: the digits before and behind
the point, and a power of ten. Each part ends where the next one begins, because that begins with no
digit, and so the text is read as it was written (`NumeralText.gives_numeral`).

As long as all digits fit, nothing of the numeral is dropped. The digits before and behind the point
are one number then, and the power says where the point stands in it (`Numeral.number_of_fits`).
-/

namespace CrashCourier.Json

namespace Numeral

theorem foldl_eq_value (sum : Nat) (ds : List Nat) :
    ds.foldl (fun n d => n * 10 + d) sum = sum * 10 ^ ds.length + value ds := by
  unfold value
  induction ds generalizing sum with
  | nil => simp
  | cons d ds ih =>
      rw [List.foldl_cons, List.foldl_cons, ih, ih (0 * 10 + d), List.length_cons, pow_succ]
      ring

theorem value_append (ds es : List Nat) :
    value (ds ++ es) = value ds * 10 ^ es.length + value es := by
  rw [value, List.foldl_append, foldl_eq_value]
  rfl

theorem value_zeros (k : Nat) : value (List.replicate k 0) = 0 := by
  induction k with
  | zero => rfl
  | succ k ih => exact ih

/-- All digits, as one number. -/
def digits (n : Numeral) : Nat :=
  value (n.whole ++ n.fraction.getD [])

/-- The power of ten that is written out. -/
def written : Option (Bool × List Nat) → Int
  | none => 0
  | some (down, ds) => if down then -(value ds : Int) else value ds

/-- The power of ten that scales the digits. -/
def exponent (n : Numeral) : Int :=
  written n.power - (n.fraction.getD []).length

theorem except_bind_pure {α β : Type} (r : Except Fault α) (f : α → β) :
    (do return f (← r)) = r.map f := by
  cases r with
  | error fault => rfl
  | ok a => rfl

/-- As long as the digits fit, those behind the point are collected after those before it. -/
theorem collect_of_fits {n : Numeral} (hdigits : n.digits ≤ greatest) :
    collect 0 n.whole = (value n.whole, 0) ∧
      collect (value n.whole) (n.fraction.getD []) = (n.digits, 0) := by
  have hsplit : n.digits = (n.fraction.getD []).foldl (fun n d => n * 10 + d) (value n.whole) := by
    rw [digits, value, List.foldl_append]
    rfl
  have hle : value n.whole ≤ n.digits := by
    rw [digits, value_append]
    have hpos : 0 < 10 ^ (n.fraction.getD []).length := Nat.pow_pos (by decide)
    have hmul := Nat.le_mul_of_pos_right (value n.whole) hpos
    omega
  refine ⟨Reader.collect_eq (hle.trans hdigits), ?_⟩
  rw [hsplit]
  exact Reader.collect_eq (hsplit ▸ hdigits)

/-- **A numeral whose digits fit** is its digits, scaled. -/
theorem number_of_fits {n : Numeral} (hdigits : n.digits ≤ greatest)
    (hopen : n.fraction ≠ none ∨ n.power ≠ none)
    (hpower : ∀ p ∈ n.power, value p.2 ≤ greatestPower) :
    n.number = (scaled n.digits n.exponent).map fun x =>
      .real (if n.negative then x.neg else x) := by
  obtain ⟨hwhole, hbehind⟩ := collect_of_fits hdigits
  have hnot : ¬ (n.fraction.isNone ∧ n.power.isNone ∧ 0 = 0) := by
    intro h
    rcases hopen with hne | hne
    · exact hne (Option.isNone_iff_eq_none.mp h.1)
    · exact hne (Option.isNone_iff_eq_none.mp h.2.1)
  unfold number exponent
  rw [hwhole]
  dsimp only
  rw [if_neg hnot, hbehind]
  dsimp only
  cases hp : n.power with
  | none => exact except_bind_pure _ _
  | some p =>
      obtain ⟨down, ds⟩ := p
      have hle := hpower (down, ds) hp
      dsimp only at hle ⊢
      rw [if_neg (not_lt.mpr hle)]
      refine (except_bind_pure _ _).trans ?_
      congr 2
      rw [written, Nat.sub_zero, Nat.cast_zero]
      split
      · ring
      · ring

end Numeral

/-! ## Written numerals -/

namespace Reader

open Text.Utf8 (encode)

/-- How a fraction is written. -/
def pointText (fraction : List Char) : List Char :=
  if fraction = [] then [] else '.' :: fraction

/-- How a power of ten is written. -/
def powerText : Option (Bool × List Char) → List Char
  | none => []
  | some (down, ds) => 'e' :: (if down then '-' else '+') :: ds

/-- What is read of a fraction. -/
def fractionIn (fraction : List Char) : Option (List Nat) :=
  if fraction = [] then none else some (digitsIn fraction)

/-- What is read of a power. -/
def powerIn (power : Option (Bool × List Char)) : Option (Bool × List Nat) :=
  power.map fun p => (p.1, digitsIn p.2)

theorem encode_append (cs ds : List Char) : encode (cs ++ ds) = encode cs ++ encode ds :=
  List.flatMap_append

/-- Behind the digits of a fraction neither a digit nor a point is written. -/
theorem powerText_head (power : Option (Bool × List Char)) :
    ∀ b ∈ (encode (powerText power)).head?, b = 0x65 := by
  intro b hb
  cases power with
  | none => cases hb
  | some p =>
      obtain ⟨down, ds⟩ := p
      cases hb
      rfl

theorem stops_powerText (power : Option (Bool × List Char)) : Stops (encode (powerText power)) := by
  intro b hb
  rw [powerText_head power b hb]
  decide

theorem gives_fraction_encode (atEnd : Fault) {fraction : List Char} (hfraction : AllDigits fraction)
    (power : Option (Bool × List Char)) :
    Gives (Reader.fraction atEnd) (encode (pointText fraction) ++ encode (powerText power))
      (fractionIn fraction) (encode (powerText power)) := by
  unfold pointText fractionIn
  by_cases hnil : fraction = []
  · rw [if_pos hnil, if_pos hnil]
    refine gives_fraction.mpr (.inr ⟨?_, rfl, rfl⟩)
    intro tail htail
    have hinput : encode (powerText power) = 0x2E :: tail := htail
    have hhead := powerText_head power
    rw [hinput] at hhead
    exact absurd (hhead 0x2E rfl) (by decide)
  · rw [if_neg hnil, if_neg hnil]
    exact gives_fraction.mpr (.inl ⟨_, _, rfl,
      gives_someDigits_encode atEnd hfraction hnil (stops_powerText power), rfl⟩)

theorem gives_power_encode (atEnd : Fault) {power : Option (Bool × List Char)}
    (hpower : ∀ p ∈ power, AllDigits p.2 ∧ p.2 ≠ []) :
    Gives (Reader.power atEnd) (encode (powerText power)) (powerIn power) [] := by
  cases power with
  | none => exact gives_power.mpr (.inr ⟨nofun, rfl, rfl⟩)
  | some p =>
      obtain ⟨down, ds⟩ := p
      obtain ⟨hds, hne⟩ := hpower (down, ds) rfl
      have hdigits : Gives (someDigits atEnd) (encode ds ++ []) (digitsIn ds) [] :=
        gives_someDigits_encode atEnd hds hne nofun
      rw [List.append_nil] at hdigits
      refine gives_power.mpr (.inl ⟨0x65, _, rfl, .inl rfl, gives_signedDigits.mpr
        ⟨down, _, rfl, .inl ⟨_, ?_, hdigits⟩⟩⟩)
      cases down with
      | true => rfl
      | false => rfl

end Reader

open Reader

/-- A numeral as it is written, its sign apart: digits, a fraction if there are digits behind the point,
and a power of ten. It has one of the two, so that it is no whole number. -/
structure NumeralText where
  whole : List Char
  fraction : List Char
  power : Option (Bool × List Char)
  whole_digits : AllDigits whole
  whole_ne : whole ≠ []
  /-- A zero stands alone before the point. -/
  whole_zero : whole.head? = some '0' → whole.length = 1
  fraction_digits : AllDigits fraction
  power_digits : ∀ p ∈ power, AllDigits p.2 ∧ p.2 ≠ []
  open_ne : fraction ≠ [] ∨ power ≠ none

namespace NumeralText

open Text.Utf8 (encode)

/-- The characters. -/
def chars (t : NumeralText) : List Char :=
  t.whole ++ (pointText t.fraction ++ powerText t.power)

/-- The numeral. -/
def numeral (t : NumeralText) (negative : Bool) : Numeral :=
  ⟨negative, digitsIn t.whole, fractionIn t.fraction, powerIn t.power⟩

/-- **A written numeral is read as it was written.** -/
theorem gives_numeral (t : NumeralText) (atEnd : Fault) (negative : Bool) :
    Gives (Reader.numeral atEnd) (encode ((if negative then ['-'] else []) ++ t.chars))
      (t.numeral negative) [] := by
  have hstops : Stops (encode (pointText t.fraction) ++ encode (powerText t.power)) := by
    unfold pointText
    by_cases hnil : t.fraction = []
    · rw [if_pos hnil]
      exact stops_powerText t.power
    · rw [if_neg hnil]
      intro b hb
      cases hb
      rfl
  have hunsigned : Gives (unsigned atEnd negative) (encode t.chars) (t.numeral negative) [] := by
    unfold chars
    rw [encode_append, encode_append]
    exact gives_bind.mpr ⟨_, _,
      gives_wholeDigits_encode atEnd t.whole_digits t.whole_ne t.whole_zero hstops,
      gives_bind.mpr ⟨_, _, gives_fraction_encode atEnd t.fraction_digits t.power,
        gives_bind.mpr ⟨_, _, gives_power_encode atEnd t.power_digits,
          gives_pure.mpr ⟨rfl, rfl⟩⟩⟩⟩
  cases negative with
  | true => exact Reader.gives_numeral.mpr (.inl ⟨_, rfl, hunsigned⟩)
  | false => exact Reader.gives_numeral.mpr (.inr hunsigned)

theorem digitsIn_append (cs ds : List Char) : digitsIn (cs ++ ds) = digitsIn cs ++ digitsIn ds :=
  List.map_append

theorem fractionIn_getD (fraction : List Char) :
    (fractionIn fraction).getD [] = digitsIn fraction := by
  unfold fractionIn
  by_cases hnil : fraction = []
  · rw [if_pos hnil, hnil]
    rfl
  · rw [if_neg hnil]
    rfl

/-- The digits before and behind the point are one number. -/
theorem digits_numeral (t : NumeralText) (negative : Bool) :
    (t.numeral negative).digits = Numeral.value (digitsIn (t.whole ++ t.fraction)) := by
  rw [digitsIn_append, ← fractionIn_getD t.fraction]
  rfl

theorem exponent_numeral (t : NumeralText) (negative : Bool) :
    (t.numeral negative).exponent = Numeral.written (powerIn t.power) - t.fraction.length := by
  have hlength : (digitsIn t.fraction).length = t.fraction.length := List.length_map _
  rw [← hlength, ← fractionIn_getD]
  rfl

/-- It is read as the number that its digits make, scaled. -/
theorem number_numeral (t : NumeralText) (negative : Bool)
    (hdigits : (t.numeral negative).digits ≤ Numeral.greatest)
    (hpower : ∀ p ∈ t.power, Numeral.value (digitsIn p.2) ≤ Numeral.greatestPower) :
    (t.numeral negative).number =
      (Numeral.scaled (t.numeral negative).digits (t.numeral negative).exponent).map fun x =>
        .real (if negative then x.neg else x) := by
  refine Numeral.number_of_fits hdigits ?_ ?_
  · rcases t.open_ne with hne | hne
    · refine .inl ?_
      unfold numeral fractionIn
      rw [if_neg hne]
      exact Option.some_ne_none _
    · refine .inr ?_
      intro hnone
      exact hne (Option.map_eq_none_iff.mp hnone)
  · intro p hp
    obtain ⟨q, hq, rfl⟩ := Option.map_eq_some_iff.mp hp
    exact hpower q hq

end NumeralText

end CrashCourier.Json
