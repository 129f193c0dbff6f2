import CrashCourier.Proofs.Decimal.Shortest
import CrashCourier.Proofs.Json.NumeralText

/-!
# What a written number is read as

The text of a number is read as a numeral whose digits all fit, so nothing is dropped, and what is left
of the matter is arithmetic: the number is read back just in case its decimal, with the digits rounded
and scaled by a power of ten, is the number again (`readsBack_iff`).

A decimal without places behind the point is written with one all the same, a zero. Its digits are
collected with that zero, and with those that fill it up to the point.
-/

namespace CrashCourier.Decimal

open Json Json.Reader

/-- The power of ten at which the first digit stands. -/
def leading (x : Decimal) : Int :=
  x.exponent + digitCount x.digits - 1

/-- A zero is not scaled. -/
def Proper (x : Decimal) : Prop :=
  x.digits = 0 → x.exponent = 0

variable {x : Decimal}

theorem allDigits_zeros (k : Nat) : AllDigits (List.replicate k '0') := by
  intro c hc
  rw [List.eq_of_mem_replicate hc]
  rfl

theorem value_toDigits (n : Nat) : Numeral.value (digitsIn (Nat.toDigits 10 n)) = n :=
  value_digitsOf n

theorem digitsIn_zeros (k : Nat) : digitsIn (List.replicate k '0') = List.replicate k 0 :=
  List.map_replicate

/-- The digits begin with a zero only if there is nothing else. -/
theorem eq_zero_of_head {rest : List Char}
    (h : (Nat.toDigits 10 x.digits ++ rest).head? = some '0') : x.digits = 0 := by
  rw [List.head?_append_of_ne_nil _ Nat.toDigits_ne_nil] at h
  by_contra hne
  exact head_toDigits (Nat.pos_of_ne_zero hne) h

/-- A whole decimal: its digits, zeros up to the point, and one behind it. -/
def wholeText (x : Decimal) (hx : x.Proper) : NumeralText where
  whole := Nat.toDigits 10 x.digits ++ List.replicate x.exponent.toNat '0'
  fraction := ['0']
  power := none
  whole_digits := by
    intro c hc
    rcases List.mem_append.mp hc with hc | hc
    · exact allDigits_toDigits _ c hc
    · exact allDigits_zeros _ c hc
  whole_ne := List.append_ne_nil_of_left_ne_nil Nat.toDigits_ne_nil _
  whole_zero := by
    intro hhead
    have hzero := eq_zero_of_head hhead
    rw [hzero, hx hzero]
    rfl
  fraction_digits := allDigits_zeros 1
  power_digits := nofun
  open_ne := .inl (List.cons_ne_nil _ _)

/-- How many places a decimal has behind the point. -/
def places (x : Decimal) : Nat :=
  (-x.exponent).toNat

/-- The digits with zeros in front, so that one stands before the point. -/
def padded (x : Decimal) : List Char :=
  List.replicate (x.places + 1 - (Nat.toDigits 10 x.digits).length) '0' ++ Nat.toDigits 10 x.digits

theorem length_padded (x : Decimal) :
    x.padded.length = max (x.places + 1) (digitCount x.digits) := by
  rw [padded, List.length_append, List.length_replicate]
  unfold digitCount
  omega

theorem allDigits_padded (x : Decimal) : AllDigits x.padded := by
  intro c hc
  rcases List.mem_append.mp hc with hc | hc
  · exact allDigits_zeros _ c hc
  · exact allDigits_toDigits _ c hc

/-- A decimal with places behind the point. -/
def pointedText (x : Decimal) (h : x.exponent < 0) (hx : x.Proper) : NumeralText where
  whole := x.padded.take (x.padded.length - x.places)
  fraction := x.padded.drop (x.padded.length - x.places)
  power := none
  whole_digits := fun c hc => allDigits_padded x c (List.mem_of_mem_take hc)
  whole_ne := by
    have hlength := length_padded x
    refine List.ne_nil_of_length_pos ?_
    rw [List.length_take]
    omega
  whole_zero := by
    intro hhead
    have hlength := length_padded x
    rw [List.length_take]
    -- zeros stand in front only if one of them is all that stands before the point
    rcases Nat.lt_or_ge x.places (digitCount x.digits) with hlong | hshort
    · have hnone : x.places + 1 - (Nat.toDigits 10 x.digits).length = 0 := by
        unfold digitCount at hlong
        omega
      have hplaces : x.padded.length - x.places ≠ 0 := by omega
      rw [List.head?_take, if_neg hplaces, padded, hnone, List.replicate_zero, List.nil_append,
        ← List.append_nil (Nat.toDigits 10 x.digits)] at hhead
      have hzero := hx (eq_zero_of_head hhead)
      omega
    · omega
  fraction_digits := fun c hc => allDigits_padded x c (List.mem_of_mem_drop hc)
  power_digits := nofun
  open_ne := by
    have hlength := length_padded x
    refine .inl (List.ne_nil_of_length_pos ?_)
    rw [List.length_drop]
    unfold places at *
    omega

/-- A decimal with one digit before the point and a power of ten. -/
def poweredText (x : Decimal) : NumeralText where
  whole := (Nat.toDigits 10 x.digits).take 1
  fraction := (Nat.toDigits 10 x.digits).drop 1
  power := some (decide (x.leading < 0), Nat.toDigits 10 x.leading.natAbs)
  whole_digits := fun c hc => allDigits_toDigits _ c (List.mem_of_mem_take hc)
  whole_ne := by
    have hpos := digitCount_pos x.digits
    refine List.ne_nil_of_length_pos ?_
    rw [List.length_take]
    exact lt_min Nat.one_pos hpos
  whole_zero := by
    intro _
    have hpos := digitCount_pos x.digits
    rw [List.length_take]
    exact min_eq_left hpos
  fraction_digits := fun c hc => allDigits_toDigits _ c (List.mem_of_mem_drop hc)
  power_digits := by
    intro p hp
    cases hp
    exact ⟨allDigits_toDigits _, Nat.toDigits_ne_nil⟩
  open_ne := .inr (Option.some_ne_none _)

/-- The text of a decimal. -/
def noted (layout : Layout) (x : Decimal) (hx : x.Proper) : NumeralText :=
  if layout.positional x.leading then
    if h : 0 ≤ x.exponent then x.wholeText hx else x.pointedText (not_le.mp h) hx
  else x.poweredText

theorem toList_positionalText (hx : x.Proper) : (positionalText x).toList =
    (if h : 0 ≤ x.exponent then x.wholeText hx else x.pointedText (not_le.mp h) hx).chars := by
  unfold positionalText
  by_cases h : 0 ≤ x.exponent
  · rw [if_pos h, dif_pos h, String.toList_ofList]
    rfl
  · rw [if_neg h, dif_neg h, String.toList_ofList]
    have hfraction := (x.pointedText (not_le.mp h) hx).open_ne.resolve_right (absurd rfl)
    unfold NumeralText.chars pointText
    rw [if_neg hfraction]
    show _ = _ ++ ('.' :: _ ++ [])
    rw [List.append_nil]
    rfl

theorem mantissa_eq (ds : List Char) :
    (match ds with
      | [] => []
      | [d] => [d]
      | d :: rest => d :: '.' :: rest) = ds.take 1 ++ pointText (ds.drop 1) := by
  match ds with
  | [] => rfl
  | [d] => rfl
  | d :: c :: rest => rfl

theorem toList_exponentText (x : Decimal) : (exponentText x).toList = x.poweredText.chars := by
  have hcount : x.exponent + (Nat.toDigits 10 x.digits).length - 1 = x.leading := rfl
  have hsign : (if 0 ≤ x.leading then "+" else "-").toList =
      [if decide (x.leading < 0) then '-' else '+'] := by
    by_cases h : x.leading < 0
    · rw [if_neg (not_le.mpr h), decide_eq_true h]
      rfl
    · rw [if_pos (not_lt.mp h), decide_eq_false h]
      rfl
  unfold exponentText
  dsimp only
  rw [hcount, String.toList_append, String.toList_append, String.toList_append,
    String.toList_ofList, Nat.toString_eq_ofList_toDigits, String.toList_ofList,
    String.toList_ofList, hsign]
  refine (congrArg (· ++ ['e'] ++ _ ++ _) (mantissa_eq _)).trans ?_
  unfold NumeralText.chars poweredText powerText
  simp only [List.append_assoc]
  rfl

theorem toList_noted (layout : Layout) (hx : x.Proper) :
    (if layout.positional x.leading then positionalText x else exponentText x).toList =
      (x.noted layout hx).chars := by
  unfold noted
  by_cases h : layout.positional x.leading
  · rw [if_pos h, if_pos h]
    exact toList_positionalText hx
  · rw [if_neg h, if_neg h]
    exact toList_exponentText x

/-- The digits that a reader collects from the text of a decimal, and the power of ten that is left. -/
def collected (layout : Layout) (x : Decimal) : Nat × Int :=
  if layout.positional x.leading ∧ 0 ≤ x.exponent then
    (x.digits * 10 ^ (x.exponent.toNat + 1), -1)
  else (x.digits, x.exponent)

theorem value_collected (layout : Layout) (x : Decimal) :
    ((x.collected layout).1 : ℚ) * 10 ^ (x.collected layout).2 = x.value := by
  unfold collected value
  split
  · rename_i h
    have hexp : x.exponent = ((x.exponent.toNat + 1 : Nat) : ℤ) + -1 := by
      push_cast
      omega
    rw [hexp, zpow_add₀ (by norm_num), zpow_natCast, ← hexp]
    push_cast
    ring
  · rfl

open NumeralText in
theorem digits_wholeText (hx : x.Proper) (negative : Bool) :
    ((x.wholeText hx).numeral negative).digits = x.digits * 10 ^ (x.exponent.toNat + 1) := by
  have hzeros : digitsIn ['0'] = List.replicate 1 0 := rfl
  rw [digits_numeral]
  show Numeral.value (digitsIn (Nat.toDigits 10 x.digits ++ _ ++ ['0'])) = _
  rw [digitsIn_append, digitsIn_append, digitsIn_zeros, hzeros, List.append_assoc,
    List.replicate_append_replicate, Numeral.value_append, value_toDigits, Numeral.value_zeros,
    List.length_replicate, Nat.add_zero]

open NumeralText in
theorem digits_pointedText (h : x.exponent < 0) (hx : x.Proper) (negative : Bool) :
    ((x.pointedText h hx).numeral negative).digits = x.digits := by
  rw [digits_numeral]
  show Numeral.value (digitsIn (x.padded.take _ ++ x.padded.drop _)) = _
  rw [List.take_append_drop, padded, digitsIn_append, digitsIn_zeros, Numeral.value_append,
    value_toDigits, Numeral.value_zeros, Nat.zero_mul, Nat.zero_add]

open NumeralText in
theorem digits_poweredText (x : Decimal) (negative : Bool) :
    (x.poweredText.numeral negative).digits = x.digits := by
  rw [digits_numeral]
  show Numeral.value (digitsIn (List.take 1 _ ++ List.drop 1 _)) = _
  rw [List.take_append_drop, value_toDigits]

open NumeralText in
theorem exponent_pointedText (h : x.exponent < 0) (hx : x.Proper) (negative : Bool) :
    ((x.pointedText h hx).numeral negative).exponent = x.exponent := by
  have hlength := length_padded x
  rw [exponent_numeral]
  show 0 - ((x.padded.drop (x.padded.length - x.places)).length : Int) = x.exponent
  rw [List.length_drop]
  unfold places at *
  omega

open NumeralText in
theorem exponent_poweredText (x : Decimal) (negative : Bool) :
    (x.poweredText.numeral negative).exponent = x.exponent := by
  have hpos := digitCount_pos x.digits
  have hpower : Numeral.written (powerIn x.poweredText.power) = x.leading := by
    show (if decide (x.leading < 0) = true then -(Numeral.value (digitsIn _) : Int)
      else Numeral.value (digitsIn _)) = x.leading
    rw [value_toDigits]
    by_cases h : x.leading < 0
    · rw [if_pos (decide_eq_true h)]
      omega
    · rw [if_neg (by rw [decide_eq_true_eq]; exact h)]
      omega
  rw [exponent_numeral, hpower]
  show x.leading - ((List.drop 1 (Nat.toDigits 10 x.digits)).length : Int) = x.exponent
  rw [List.length_drop]
  unfold leading digitCount at *
  omega

/-- **The numeral of a decimal**: its digits and exponent, or those up to the zero behind the point. -/
theorem numeral_noted (layout : Layout) (hx : x.Proper) (negative : Bool) :
    (((x.noted layout hx).numeral negative).digits, ((x.noted layout hx).numeral negative).exponent) =
      x.collected layout := by
  unfold noted collected
  by_cases h : layout.positional x.leading = true
  · rw [if_pos h]
    by_cases hle : 0 ≤ x.exponent
    · rw [dif_pos hle, if_pos ⟨h, hle⟩, digits_wholeText]
      rfl
    · rw [dif_neg hle, if_neg (fun hboth => hle hboth.2), digits_pointedText, exponent_pointedText]
  · rw [if_neg h, if_neg (fun hboth => h hboth.1), digits_poweredText, exponent_poweredText]

/-- All digits that are collected fit, and so does the power of ten. -/
theorem collected_le (hdigits : x.digits ≤ 10 ^ 17) :
    (x.collected .json).1 ≤ Numeral.greatest := by
  have hgreatest : Numeral.greatest = 18446744073709551615 := rfl
  unfold collected
  by_cases h : Layout.json.positional x.leading = true ∧ 0 ≤ x.exponent
  · rw [if_pos h]
    obtain ⟨hpositional, hle⟩ := h
    have hleading : x.leading ≤ 15 := by
      have hboth : (-5 ≤ x.leading && x.leading ≤ 15) = true := hpositional
      rw [Bool.and_eq_true, decide_eq_true_eq, decide_eq_true_eq] at hboth
      exact hboth.2
    have hcount : digitCount x.digits + (x.exponent.toNat + 1) ≤ 17 := by
      unfold leading at hleading
      omega
    have hle := digits_mul_le hcount
    dsimp only
    omega
  · rw [if_neg h]
    dsimp only
    omega

theorem power_noted_le {layout : Layout} (hx : x.Proper)
    (hleading : x.leading.natAbs ≤ Numeral.greatestPower) :
    ∀ p ∈ (x.noted layout hx).power, Numeral.value (digitsIn p.2) ≤ Numeral.greatestPower := by
  unfold noted
  split
  · split
    · exact nofun
    · exact nofun
  · intro p hp
    cases hp
    rw [value_toDigits]
    exact hleading

end CrashCourier.Decimal

/-! ## Written numbers -/

namespace CrashCourier.Binary64

open Decimal Json Json.Reader

variable {x y z : Binary64}

theorem proper_shortest (x : Binary64) : (shortest x).Proper := by
  intro hzero
  rcases Nat.eq_zero_or_pos x.significand with hx | hx
  · rw [shortest_of_zero hx]
  · have hpos := (shortest_spec hx).2.1
    omega

theorem digits_shortest_le (x : Binary64) : (shortest x).digits ≤ 10 ^ 17 := by
  rcases Nat.eq_zero_or_pos x.significand with hx | hx
  · rw [shortest_of_zero hx]
    exact Nat.zero_le _
  · exact (shortest_spec hx).2.2

theorem leading_shortest_le (x : Binary64) :
    (shortest x).leading.natAbs ≤ Numeral.greatestPower := by
  have hgreatest : Numeral.greatestPower = 2147483647 := rfl
  rcases Nat.eq_zero_or_pos x.significand with hx | hx
  · rw [shortest_of_zero hx]
    decide
  · obtain ⟨hlow, hhigh⟩ := leading_bounds hx
    unfold leading
    omega

/-- The text of a number, sign and all. -/
theorem octets_text (layout : Decimal.Layout) (x : Binary64) : octets (layout.text x) =
    Text.Utf8.encode ((if x.negative then ['-'] else []) ++
      ((shortest x).noted layout (proper_shortest x)).chars) := by
  have htext : layout.text x = (if x.negative then "-" else "") ++
      (if layout.positional (shortest x).leading then positionalText (shortest x)
        else exponentText (shortest x)) := rfl
  have hsign : (if x.negative = true then "-" else "").toList =
      if x.negative = true then ['-'] else [] := by
    cases x.negative with
    | true => rfl
    | false => rfl
  rw [octets, htext, String.toList_append, toList_noted layout (proper_shortest x), hsign]

/-! ### Signs -/

theorem negative_of_ofRatio? {negative : Bool} {n d : Nat}
    (h : ofRatio? negative n d = some x) : x.negative = negative := by
  unfold ofRatio? at h
  split at h
  · cases h
    rfl
  · cases h

theorem negative_of_mul? (h : x.mul? y = some z) : z.negative = (x.negative != y.negative) :=
  negative_of_ofRatio? h

theorem negative_of_div? (h : x.div? y = some z) : z.negative = (x.negative != y.negative) := by
  unfold div? at h
  split at h
  · cases h
  · exact negative_of_ofRatio? h

theorem eq_some_of_elim {o : Option Binary64}
    (h : (o.elim (throw .numberOutOfRange) pure : Except Fault Binary64) = .ok x) : o = some x := by
  cases o with
  | none => cases h
  | some y =>
      cases h
      rfl

theorem negative_of_ofNat? {n : Nat} (h : ofNat? n = some x) : x.negative = false :=
  negative_of_ofRatio? h

/-- What is scaled has no sign yet. -/
theorem negative_of_scaled {digits : Nat} {e : Int} (h : Numeral.scaled digits e = .ok x) :
    x.negative = false := by
  unfold Numeral.scaled at h
  dsimp only at h
  split at h
  · cases h
    rfl
  · split at h
    · split at h
      · obtain ⟨y, hy, h⟩ := Option.bind_eq_some_iff.mp (eq_some_of_elim h)
        obtain ⟨z, hz, h⟩ := Option.bind_eq_some_iff.mp h
        rw [negative_of_mul? h, negative_of_ofNat? hy, negative_of_ofNat? hz]
        rfl
      · cases h
    · split at h
      · obtain ⟨y, hy, h⟩ := Option.bind_eq_some_iff.mp (eq_some_of_elim h)
        obtain ⟨z, hz, h⟩ := Option.bind_eq_some_iff.mp h
        rw [negative_of_div? h, negative_of_ofNat? hy, negative_of_ofNat? hz]
        rfl
      · split at h
        · obtain ⟨y, hy, h⟩ := Option.bind_eq_some_iff.mp (eq_some_of_elim h)
          obtain ⟨z, hz, h⟩ := Option.bind_eq_some_iff.mp h
          obtain ⟨w, hw, h⟩ := Option.bind_eq_some_iff.mp h
          obtain ⟨u, hu, h⟩ := Option.bind_eq_some_iff.mp h
          rw [negative_of_div? h, negative_of_div? hw, negative_of_ofNat? hy, negative_of_ofNat? hz,
            negative_of_ofNat? hu]
          rfl
        · cases h
          rfl

/-! ### Reading -/

/-- What is read of the text of a number, its sign apart. -/
def rescaled (x : Binary64) : Except Fault Binary64 :=
  Numeral.scaled ((shortest x).collected .json).1 ((shortest x).collected .json).2

/-- The number that the text of a number is read as, if it is read as one. -/
def reread (x : Binary64) : Binary64 :=
  match x.rescaled with
  | .ok y => if x.negative then y.neg else y
  | .error _ => x

/-- The text of a number is read as a number. -/
def Readable (x : Binary64) : Prop :=
  ∃ y, x.rescaled = .ok y

/-- The numeral that the text of a number is. -/
def numeralOf (x : Binary64) : Numeral :=
  ((shortest x).noted .json (proper_shortest x)).numeral x.negative

theorem gives_numeralOf (x : Binary64) :
    Gives (numeral .endOfValue) (octets (Decimal.Layout.json.text x)) x.numeralOf [] := by
  rw [octets_text]
  exact NumeralText.gives_numeral _ _ _

theorem number_numeralOf (x : Binary64) : x.numeralOf.number =
    x.rescaled.map fun y => .real (if x.negative then y.neg else y) := by
  have hcollected := numeral_noted .json (proper_shortest x) x.negative
  have hdigits := congrArg Prod.fst hcollected
  have hexponent := congrArg Prod.snd hcollected
  dsimp only at hdigits hexponent
  have hnumber := ((shortest x).noted .json (proper_shortest x)).number_numeral x.negative
    (hdigits ▸ collected_le (digits_shortest_le x))
    (power_noted_le (proper_shortest x) (leading_shortest_le x))
  rw [hdigits, hexponent] at hnumber
  exact hnumber

/-- **The text of a number is read as a number, or not at all.** -/
theorem gives_number_text {x : Binary64} {k : Number} {rest rest' : Bytes} (hrest : Ends rest) :
    Gives number (octets (Decimal.Layout.json.text x) ++ rest) k rest' ↔
      x.Readable ∧ k = .real x.reread ∧ rest' = rest := by
  have hnumeral := extends_numeral .endOfValue x.gives_numeralOf hrest
  rw [gives_number]
  unfold Readable reread
  refine ⟨?_, ?_⟩
  · intro h
    obtain ⟨n, hn, hk⟩ := h
    obtain ⟨rfl, rfl⟩ := hnumeral.eq hn
    rw [number_numeralOf] at hk
    cases hscaled : x.rescaled with
    | error fault =>
        rw [hscaled] at hk
        cases hk
    | ok y =>
        rw [hscaled] at hk
        exact ⟨⟨y, rfl⟩, (Except.ok.inj hk).symm, rfl⟩
  · intro h
    obtain ⟨⟨y, hy⟩, rfl, rfl⟩ := h
    refine ⟨_, hnumeral, ?_⟩
    rw [number_numeralOf, hy]
    rfl

/-- A number with this sign is another one just in case that is its magnitude. -/
theorem eq_withSign_iff (hy : y.negative = false) :
    (if x.negative then y.neg else y) = x ↔ y = x.withSign false := by
  obtain ⟨negative, rank, hrank⟩ := x
  obtain ⟨negative', rank', hrank'⟩ := y
  obtain rfl : negative' = false := hy
  cases negative with
  | true => simp [neg, withSign]
  | false => simp [withSign]

theorem readsBack_iff_reread (x : Binary64) : x.ReadsBack ↔ x.Readable ∧ x.reread = x := by
  have htext : Gives number (octets (Decimal.Layout.json.text x) ++ []) (.real x) [] ↔
      x.Readable ∧ Number.real x = .real x.reread ∧ [] = [] := gives_number_text ends_nil
  rw [List.append_nil] at htext
  refine htext.trans ?_
  rw [Number.real.injEq]
  exact and_congr_right fun _ => ⟨fun h => h.1.symm, fun h => ⟨h.symm, rfl⟩⟩

/-- **A number is read back just in case its decimal is scaled to its magnitude.** -/
theorem readsBack_iff (x : Binary64) : x.ReadsBack ↔ x.rescaled = .ok (x.withSign false) := by
  rw [readsBack_iff_reread]
  unfold Readable reread
  cases hscaled : x.rescaled with
  | error fault =>
      refine ⟨?_, nofun⟩
      intro h
      obtain ⟨⟨y, hy⟩, _⟩ := h
      cases hy
  | ok y =>
      rw [Except.ok.injEq, ← eq_withSign_iff (negative_of_scaled hscaled)]
      exact ⟨fun h => h.2, fun h => ⟨⟨y, rfl⟩, h⟩⟩

end CrashCourier.Binary64
