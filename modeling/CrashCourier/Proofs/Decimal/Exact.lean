import CrashCourier.Proofs.Decimal.Reading

/-!
# Decimals that are read back

A reader rounds the digits, rounds the power of ten, and rounds their product or quotient. Digits of 53
bits are rounded to themselves, and so are the powers of ten up to the 22nd, since five to that power has
53 bits as well. Then there is one rounding only, of a fraction that is the shortest decimal itself, and
that gives the number because the decimal lies in its interval (`readsBack_of_exact`).

A number that is written with at most 15 digits, the first of them between the places of 10⁻⁸ and 10¹³, is
of this kind (`plain_of_digitCount`). Beyond that there are numbers which are lost.
-/

namespace CrashCourier.Binary64

open Decimal Json

variable {x y : Binary64}

/-! ## Numbers that are not rounded -/

theorem between_magnitude (hx : 0 < x.significand) : Between x x.magnitude := by
  obtain ⟨hlow, hhigh, _⟩ := width_of hx
  have hvalue : (Interval.of x).value = 4 * x.significand := rfl
  have hcast : 4 * x.magnitude / 2 ^ x.exponent = (Interval.of x).value := by
    rw [magnitude, hvalue, ← mul_assoc, mul_div_cancel_right₀ _ (two_zpow_pos _).ne']
    push_cast
    rfl
  have hlow' : ((Interval.of x).low : ℚ) < (Interval.of x).value := by exact_mod_cast hlow
  have hhigh' : ((Interval.of x).value : ℚ) < (Interval.of x).high := by exact_mod_cast hhigh
  unfold Between
  rw [hcast]
  exact ⟨hlow'.le, hhigh'.le, fun _ => ⟨hlow', hhigh'⟩⟩

theorem significand_pos_of_magnitude (h : 0 < x.magnitude) : 0 < x.significand := by
  by_contra hzero
  rw [magnitude, Nat.eq_zero_of_not_pos hzero, Nat.cast_zero, zero_mul] at h
  exact lt_irrefl _ h

/-- A fraction that is a number gives that number. -/
theorem ofRatio?_of_magnitude {n d : Nat} (hd : 0 < d) (hx : 0 < x.magnitude)
    (h : x.magnitude = n / d) : ofRatio? false n d = some (x.withSign false) := by
  have hpos := significand_pos_of_magnitude hx
  exact ofRatio?_of_between false hpos hd (h ▸ between_magnitude hpos)

/-- A whole number of 53 bits, scaled by a power of two, is a number. -/
theorem exists_magnitude {m j : Nat} (hm : 0 < m) (hlt : m < 2 * band) (hj : j ≤ 900) :
    ∃ x : Binary64, x.magnitude = ((m * 2 ^ j : Nat) : ℚ) := by
  have hlog : m.log2 ≤ 52 := by
    have h : m.log2 < 53 := (Nat.log2_lt (by omega)).mpr hlt
    omega
  obtain ⟨hlow, hhigh⟩ := significandOf_bounds hm
  have hsig : significandOf m = m * 2 ^ (52 - m.log2) := if_pos hlog
  rw [hsig] at hlow hhigh
  have hrank : (j + 1022 + m.log2) * band + m * 2 ^ (52 - m.log2) < 2047 * band := by
    have hmul := Nat.mul_le_mul_right band (show j + 1022 + m.log2 ≤ 2000 by omega)
    rw [band] at *
    omega
  refine ⟨⟨false, _, hrank⟩, ?_⟩
  rw [magnitude_of_rank rfl hlow hhigh]
  have hexp : ((j + 1022 + m.log2 : Nat) : ℤ) - 1074 = (j : ℤ) - (52 - m.log2 : Nat) := by omega
  rw [hexp, zpow_sub₀ (by norm_num), zpow_natCast, zpow_natCast]
  push_cast
  rw [mul_assoc, mul_div_cancel₀ _ (by positivity)]

/-- Such a number is not rounded. -/
theorem exists_ofNat? {m j : Nat} (hm : 0 < m) (hlt : m < 2 * band) (hj : j ≤ 900) :
    ∃ x, ofNat? (m * 2 ^ j) = some x ∧ x.negative = false ∧
      x.magnitude = ((m * 2 ^ j : Nat) : ℚ) := by
  obtain ⟨x, hx⟩ := exists_magnitude hm hlt hj
  have hpos : 0 < x.magnitude := by
    rw [hx]
    exact_mod_cast Nat.mul_pos hm (Nat.two_pow_pos j)
  refine ⟨x.withSign false, ofRatio?_of_magnitude Nat.one_pos hpos ?_, rfl, hx⟩
  rw [hx, Nat.cast_one, div_one]

/-- A power of ten up to the 22nd is not rounded. -/
theorem exists_ofNat?_ten {k : Nat} (hk : k ≤ 22) :
    ∃ x, ofNat? (Nat.pow 10 k) = some x ∧ x.negative = false ∧ x.magnitude = 10 ^ k := by
  have hfive : 5 ^ k < 2 * band := by
    refine (Nat.pow_le_pow_right (by decide) hk).trans_lt ?_
    decide
  have hsplit : Nat.pow 10 k = 5 ^ k * 2 ^ k := by
    rw [Nat.pow_eq, ← Nat.mul_pow]
  obtain ⟨x, hx, hsign, hmagnitude⟩ :=
    exists_ofNat? (Nat.pow_pos (by decide)) hfive (show k ≤ 900 by omega)
  refine ⟨x, hsplit ▸ hx, hsign, ?_⟩
  rw [hmagnitude, ← hsplit, Nat.pow_eq]
  push_cast
  rfl

/-! ## One rounding -/

variable {z : Binary64}

/-- A product is rounded to the number in whose interval it lies. -/
theorem mul?_of_between (hz : 0 < z.significand) (h : Between z (x.magnitude * y.magnitude)) :
    x.mul? y = some (z.withSign (x.negative != y.negative)) := by
  have hratio : x.magnitude * y.magnitude = ((x.significand * y.significand : Nat) : ℚ) /
      (1 : Nat) * 2 ^ (x.exponent + y.exponent) := by
    rw [magnitude, magnitude, zpow_add₀ (by norm_num)]
    push_cast
    ring
  rw [hratio, ← shift_ratio] at h
  exact ofRatio?_of_between _ hz (shift_pos Nat.one_pos _) h

/-- A quotient is rounded to the number in whose interval it lies. -/
theorem div?_of_between (hz : 0 < z.significand) (hy : 0 < y.magnitude)
    (h : Between z (x.magnitude / y.magnitude)) :
    x.div? y = some (z.withSign (x.negative != y.negative)) := by
  have hpos := significand_pos_of_magnitude hy
  have hratio : x.magnitude / y.magnitude =
      (x.significand : ℚ) / y.significand * 2 ^ (x.exponent - y.exponent) := by
    rw [magnitude, magnitude, zpow_sub₀ (by norm_num), mul_div_mul_comm]
  rw [hratio, ← shift_ratio] at h
  unfold div?
  rw [if_neg hpos.ne']
  exact ofRatio?_of_between _ hz (shift_pos hpos _) h

/-- **Digits of 53 bits and a small power of ten** are scaled to the number in whose interval they lie. -/
theorem scaled_of_between {digits : Nat} {e : Int} (hx : 0 < x.significand) (hpos : 0 < digits)
    (hlt : digits < 2 * band) (he : e.natAbs ≤ 22) (h : Between x (digits * 10 ^ e)) :
    Numeral.scaled digits e = .ok (x.withSign false) := by
  obtain ⟨b, hb, hbsign, hbvalue⟩ := exists_ofNat? hpos hlt (Nat.zero_le 900)
  obtain ⟨p, hp, hpsign, hpvalue⟩ := exists_ofNat?_ten he
  rw [pow_zero, Nat.mul_one] at hb hbvalue
  unfold Numeral.scaled
  dsimp only
  rw [if_neg hpos.ne']
  by_cases hnonneg : 0 ≤ e
  · have habs : e.toNat = e.natAbs := by omega
    have hproduct : Between x (b.magnitude * p.magnitude) := by
      rw [hbvalue, hpvalue, ← zpow_natCast, show ((e.natAbs : Nat) : ℤ) = e by omega]
      exact h
    have hmul := mul?_of_between hx hproduct
    rw [hbsign, hpsign] at hmul
    rw [if_pos hnonneg, if_pos (by omega), hb, habs, hp]
    show ((b.mul? p).elim _ _ : Except Fault Binary64) = _
    rw [hmul]
    rfl
  · have habs : (-e).toNat = e.natAbs := by omega
    have hquotient : Between x (b.magnitude / p.magnitude) := by
      rw [hbvalue, hpvalue, ← zpow_natCast, div_eq_mul_inv, ← zpow_neg,
        show -((e.natAbs : Nat) : ℤ) = e by omega]
      exact h
    have hppos : 0 < p.magnitude := by
      rw [hpvalue]
      positivity
    have hdiv := div?_of_between hx hppos hquotient
    rw [hbsign, hpsign] at hdiv
    rw [if_neg hnonneg, if_pos (by omega), hb, habs, hp]
    show ((b.div? p).elim _ _ : Except Fault Binary64) = _
    rw [hdiv]
    rfl

/-! ## Plain numbers -/

/-- The digits that are collected from the text of the number have 53 bits, and the power of ten that is
left has a small exponent. -/
def Plain (x : Binary64) : Prop :=
  ((shortest x).collected .json).1 < 2 * band ∧ ((shortest x).collected .json).2.natAbs ≤ 22

instance (x : Binary64) : Decidable x.Plain :=
  inferInstanceAs (Decidable (_ ∧ _))

/-- Few digits around the point make a plain number. -/
theorem plain_of_digitCount (hdigits : digitCount (shortest x).digits ≤ 15)
    (hlow : -8 ≤ (shortest x).leading) (hhigh : (shortest x).leading ≤ 13) : x.Plain := by
  have hband : 2 * band = 9007199254740992 := rfl
  have hlt := lt_pow_digitCount (shortest x).digits
  unfold Plain collected
  unfold leading at hlow hhigh
  split
  · rename_i h
    refine ⟨?_, by show 1 ≤ 22; decide⟩
    have hcount : digitCount (shortest x).digits + ((shortest x).exponent.toNat + 1) ≤ 15 := by
      have hle := h.2
      omega
    have hle := digits_mul_le hcount
    dsimp only
    omega
  · have hle : 10 ^ digitCount (shortest x).digits ≤ 10 ^ 15 :=
      Nat.pow_le_pow_right (by decide) hdigits
    have hpos := digitCount_pos (shortest x).digits
    refine ⟨?_, ?_⟩
    · dsimp only
      omega
    · dsimp only
      omega

theorem rank_of_significand (hx : x.significand = 0) : x.rank = 0 := by
  unfold significand at hx
  split at hx
  · exact hx
  · rw [band] at hx
    omega

/-- **A plain number is read back.** -/
theorem readsBack_of_plain (h : x.Plain) : x.ReadsBack := by
  obtain ⟨hlt, he⟩ := h
  rw [readsBack_iff, rescaled]
  rcases Nat.eq_zero_or_pos x.significand with hx | hx
  · -- a zero keeps only its sign
    obtain ⟨negative, rank, hlt'⟩ := x
    obtain rfl : rank = 0 := rank_of_significand hx
    rw [shortest_of_zero hx]
    rfl
  · obtain ⟨hbetween, hdigits, _⟩ := shortest_spec hx
    refine scaled_of_between hx ?_ hlt he ?_
    · unfold collected
      split
      · exact Nat.mul_pos hdigits (Nat.pow_pos (by decide))
      · exact hdigits
    · rw [value_collected]
      exact hbetween

end CrashCourier.Binary64
