import CrashCourier.Binary64
import Mathlib.Algebra.Order.Field.Power
import Mathlib.Data.Rat.Cast.Order
import Mathlib.Tactic.Linarith
import Mathlib.Tactic.Ring

/-!
# The number nearest to a whole number

A whole number of 64 bits becomes a binary64 number without an error if it has at most 53 bits, and
else by rounding its quotient by a power of two. No binary64 number is nearer to it
(`nearest_ofRatio`).

Two things can be nearer: a number of the same or a greater exponent, which is a multiple of the same
power of two, and among those the rounded quotient is the best one; or a number of a smaller exponent,
which lies below the least multiple with 53 bits and is farther off than that one.
-/

namespace CrashCourier.Binary64

/-! ## Values -/

/-- The magnitude of a number. -/
def magnitude (x : Binary64) : ℚ :=
  x.significand * 2 ^ x.exponent

/-- The number as a fraction. -/
def value (x : Binary64) : ℚ :=
  if x.negative then -x.magnitude else x.magnitude

theorem magnitude_nonneg (x : Binary64) : 0 ≤ x.magnitude :=
  mul_nonneg (Nat.cast_nonneg _) (zpow_nonneg (by norm_num) _)

theorem significand_lt (x : Binary64) : x.significand < 2 * band := by
  unfold significand
  split
  · omega
  · have hmod := Nat.mod_lt x.rank (show 0 < band by decide)
    omega

/-- A rank that is put together from an exponent and a significand of 53 bits. The greatest significand
is the least one of the next exponent. -/
theorem magnitude_of_rank {x : Binary64} {e m : Nat} (h : x.rank = e * band + m)
    (hlow : band ≤ m) (hhigh : m ≤ 2 * band) : x.magnitude = m * 2 ^ ((e : ℤ) - 1074) := by
  have hband : 0 < band := by decide
  have hnot : ¬ x.rank < band := by
    rw [h]
    exact Nat.not_lt.mpr (Nat.le_trans hlow (Nat.le_add_left _ _))
  unfold magnitude significand exponent
  rw [if_neg hnot, if_neg hnot]
  by_cases htop : m = 2 * band
  · have hdiv : x.rank / band = e + 2 := by
      rw [h, htop, ← Nat.add_mul, Nat.mul_div_cancel _ hband]
    have hmod : x.rank % band = 0 := by
      rw [h, htop, ← Nat.add_mul, Nat.mul_mod_left]
    have hexp : ((e + 2 : Nat) : ℤ) - 1075 = (e : ℤ) - 1074 + 1 := by
      push_cast
      ring
    rw [hdiv, hmod, Nat.add_zero, htop, hexp, zpow_add₀ (by norm_num), zpow_one]
    push_cast
    ring
  · have hdiv : x.rank / band = e + 1 := by
      have hm : m = band + (m - band) := by omega
      rw [h, hm, ← Nat.add_assoc, ← Nat.succ_mul, Nat.add_comm, Nat.add_mul_div_right _ _ hband,
        Nat.div_eq_of_lt (by omega), Nat.zero_add]
    have hmod : x.rank % band = m - band := by
      have hm : m = band + (m - band) := by omega
      rw [h, hm, ← Nat.add_assoc, ← Nat.succ_mul, Nat.add_comm, Nat.add_mul_mod_self_right,
        Nat.mod_eq_of_lt (by omega)]
      omega
    have hexp : ((e + 1 : Nat) : ℤ) - 1075 = (e : ℤ) - 1074 := by
      push_cast
      ring
    rw [hdiv, hmod, hexp, Nat.add_sub_cancel' hlow]

/-! ## Rounding a quotient -/

/-- No multiple of the divisor is nearer than the rounded one. -/
theorem divNearest_nearest (n j : Nat) {d : Nat} (hd : 0 < d) :
    |((divNearest n d * d : Nat) : ℚ) - n| ≤ |((j * d : Nat) : ℚ) - n| := by
  have hn := Nat.div_add_mod n d
  have hr := Nat.mod_lt n hd
  have hj : j * d ≤ d * (n / d) ∨ d * (n / d) + d ≤ j * d := by
    rcases Nat.lt_or_ge (n / d) j with hlt | hge
    · have hmul := Nat.mul_le_mul_right d hlt
      rw [Nat.succ_mul, Nat.mul_comm (n / d) d] at hmul
      exact .inr hmul
    · have hmul := Nat.mul_le_mul_right d hge
      rw [Nat.mul_comm (n / d) d] at hmul
      exact .inl hmul
  have hint : (((divNearest n d * d : Nat) : ℤ) - n).natAbs ≤ (((j * d : Nat) : ℤ) - n).natAbs := by
    unfold divNearest
    dsimp only
    split
    · rw [Nat.succ_mul, Nat.mul_comm (n / d) d]
      omega
    · rw [Nat.mul_comm (n / d) d]
      omega
  have hcast (k : Nat) : |((k : Nat) : ℚ) - n| = ((((k : ℤ) - n).natAbs : Nat) : ℚ) := by
    rw [Nat.cast_natAbs]
    push_cast
    rfl
  rw [hcast, hcast]
  exact_mod_cast hint

/-- A number between two multiples is rounded to one of them. -/
theorem divNearest_bounds {n d low high : Nat} (hd : 0 < d) (hlow : low * d ≤ n)
    (hhigh : n < high * d) : low ≤ divNearest n d ∧ divNearest n d ≤ high := by
  have hge : low ≤ n / d := (Nat.le_div_iff_mul_le hd).mpr hlow
  have hlt : n / d < high := (Nat.div_lt_iff_lt_mul hd).mpr hhigh
  unfold divNearest
  dsimp only
  split <;> omega

/-! ## Whole numbers -/

section Whole

variable {n : Nat}

/-- A whole number has 53 bits before the point at the exponent of its first bit, less 52. -/
theorem exponentOf_one (hn : 0 < n) : exponentOf n 1 = (n.log2 : ℤ) - 52 := by
  have hlow : 2 ^ n.log2 ≤ n := Nat.log2_self_le (by omega)
  have hone : Nat.log2 1 = 0 := by decide
  unfold exponentOf shift
  dsimp only
  rw [hone]
  by_cases hsmall : n.log2 ≤ 53
  · have hpow : 2 * band ≤ n * 2 ^ (53 - n.log2) := by
      have hmul := Nat.mul_le_mul_right (2 ^ (53 - n.log2)) hlow
      rw [← Nat.pow_add, Nat.add_sub_cancel' hsmall] at hmul
      exact hmul
    have htoNat : (-((n.log2 : ℤ) - ((0 : Nat) : ℤ) - 53)).toNat = 53 - n.log2 := by omega
    rw [if_pos (show (0 : ℤ) ≤ -((n.log2 : ℤ) - ((0 : Nat) : ℤ) - 53) by omega), htoNat,
      Nat.pow_eq, Nat.mul_one, if_pos hpow]
    omega
  · have hpow : 2 * band * (1 * 2 ^ (n.log2 - 53)) ≤ n := by
      have hband : 2 * band = 2 ^ 53 := by decide
      rw [hband, Nat.one_mul, ← Nat.pow_add, Nat.add_sub_cancel' (by omega)]
      exact hlow
    have htoNat : (- -((n.log2 : ℤ) - ((0 : Nat) : ℤ) - 53)).toNat = n.log2 - 53 := by omega
    rw [if_neg (show ¬ (0 : ℤ) ≤ -((n.log2 : ℤ) - ((0 : Nat) : ℤ) - 53) by omega), htoNat,
      Nat.pow_eq, if_pos hpow]
    omega

/-- The significand of the number nearest to a whole number. -/
def significandOf (n : Nat) : Nat :=
  if n.log2 ≤ 52 then n * 2 ^ (52 - n.log2) else divNearest n (2 ^ (n.log2 - 52))

theorem divNearest_one (n : Nat) : divNearest n 1 = n := by
  unfold divNearest
  simp [Nat.mod_one]

theorem rankOf_one (hn : 0 < n) :
    rankOf n 1 = (n.log2 + 1022) * band + significandOf n := by
  unfold rankOf shift significandOf
  rw [if_neg (by omega), exponentOf_one hn]
  dsimp only
  have hexp : ((n.log2 : ℤ) - 52 + 1074).toNat = n.log2 + 1022 := by omega
  rw [hexp]
  by_cases hsmall : n.log2 ≤ 52
  · have htoNat : (-((n.log2 : ℤ) - 52)).toNat = 52 - n.log2 := by omega
    rw [if_pos (show (0 : ℤ) ≤ -((n.log2 : ℤ) - 52) by omega), if_pos hsmall, htoNat, Nat.pow_eq]
    dsimp only
    rw [divNearest_one]
  · have htoNat : (- -((n.log2 : ℤ) - 52)).toNat = n.log2 - 52 := by omega
    rw [if_neg (show ¬ (0 : ℤ) ≤ -((n.log2 : ℤ) - 52) by omega), if_neg hsmall, htoNat, Nat.pow_eq]
    dsimp only
    rw [Nat.one_mul]

theorem significandOf_bounds (hn : 0 < n) :
    band ≤ significandOf n ∧ significandOf n ≤ 2 * band := by
  have hlow : 2 ^ n.log2 ≤ n := Nat.log2_self_le (by omega)
  have hhigh : n < 2 ^ (n.log2 + 1) := Nat.lt_log2_self
  have hband : band = 2 ^ 52 := by decide
  unfold significandOf
  by_cases hsmall : n.log2 ≤ 52
  · have hge := Nat.mul_le_mul_right (2 ^ (52 - n.log2)) hlow
    have hlt := Nat.mul_le_mul_right (2 ^ (52 - n.log2)) (Nat.le_of_lt hhigh)
    rw [← Nat.pow_add, Nat.add_sub_cancel' hsmall] at hge
    rw [← Nat.pow_add, show n.log2 + 1 + (52 - n.log2) = 53 by omega] at hlt
    rw [if_pos hsmall, hband]
    exact ⟨hge, hlt⟩
  · rw [if_neg hsmall]
    refine divNearest_bounds (Nat.two_pow_pos _) ?_ ?_
    · rw [hband, ← Nat.pow_add, Nat.add_sub_cancel' (by omega)]
      exact hlow
    · rw [hband, ← Nat.pow_succ', ← Nat.pow_add, show 52 + 1 + (n.log2 - 52) = n.log2 + 1 by omega]
      exact hhigh

/-- The magnitude of a rounded whole number. -/
theorem magnitude_of_rankOf (hn : 0 < n) {x : Binary64} (hx : x.rank = rankOf n 1) :
    x.magnitude = significandOf n * 2 ^ ((n.log2 : ℤ) - 52) := by
  obtain ⟨hlow, hhigh⟩ := significandOf_bounds hn
  have hexp : ((n.log2 + 1022 : Nat) : ℤ) - 1074 = (n.log2 : ℤ) - 52 := by
    push_cast
    ring
  rw [magnitude_of_rank (hx.trans (rankOf_one hn)) hlow hhigh, hexp]

/-- A number of a great exponent is a multiple of a power of two. -/
theorem exists_multiple {y : Binary64} {k : Nat} (h : (k : ℤ) ≤ y.exponent) :
    ∃ j : Nat, y.magnitude = ((j * 2 ^ k : Nat) : ℚ) := by
  refine ⟨y.significand * 2 ^ (y.exponent - k).toNat, ?_⟩
  have hexp : y.exponent = ((y.exponent - k).toNat : ℤ) + k := by omega
  rw [magnitude, hexp, zpow_add₀ (by norm_num), zpow_natCast, zpow_natCast, ← hexp]
  push_cast
  ring

/-- A number of a small exponent is below the least one with 53 bits and a greater exponent. -/
theorem magnitude_lt {y : Binary64} {k : Nat} (h : y.exponent < k) :
    y.magnitude < ((band * 2 ^ k : Nat) : ℚ) := by
  have hsig : (y.significand : ℚ) < 2 * band := by exact_mod_cast y.significand_lt
  have hpos : (0 : ℚ) < 2 ^ y.exponent := zpow_pos (by norm_num) _
  have hexp : (2 : ℚ) ^ (y.exponent + 1) ≤ 2 ^ (k : ℤ) :=
    zpow_le_zpow_right₀ (by norm_num) (by omega)
  calc y.magnitude < 2 * band * 2 ^ y.exponent := mul_lt_mul_of_pos_right hsig hpos
    _ = band * 2 ^ (y.exponent + 1) := by
      rw [zpow_add₀ (by norm_num), zpow_one]
      ring
    _ ≤ band * 2 ^ (k : ℤ) := mul_le_mul_of_nonneg_left hexp (Nat.cast_nonneg _)
    _ = ((band * 2 ^ k : Nat) : ℚ) := by
      rw [zpow_natCast]
      push_cast
      ring

/-- No magnitude is nearer to a whole number than the one of its rank. -/
theorem nearest_of_rankOf (hn : 0 < n) {x : Binary64} (hx : x.rank = rankOf n 1) (y : Binary64) :
    |x.magnitude - n| ≤ |y.magnitude - n| := by
  rw [magnitude_of_rankOf hn hx]
  unfold significandOf
  by_cases hsmall : n.log2 ≤ 52
  · -- up to 53 bits nothing is lost
    have hexp : (n.log2 : ℤ) - 52 = -((52 - n.log2 : Nat) : ℤ) := by omega
    have hexact : ((n * 2 ^ (52 - n.log2) : Nat) : ℚ) * 2 ^ ((n.log2 : ℤ) - 52) = n := by
      rw [hexp, zpow_neg, zpow_natCast]
      push_cast
      rw [mul_assoc, mul_inv_cancel₀ (by positivity), mul_one]
    rw [if_pos hsmall, hexact, sub_self, abs_zero]
    exact abs_nonneg _
  · obtain ⟨k, hk⟩ : ∃ k, n.log2 = k + 52 := ⟨n.log2 - 52, by omega⟩
    have hpos : 0 < 2 ^ k := Nat.two_pow_pos k
    have hmultiple : ((divNearest n (2 ^ (n.log2 - 52)) : Nat) : ℚ) * 2 ^ ((n.log2 : ℤ) - 52) =
        ((divNearest n (2 ^ k) * 2 ^ k : Nat) : ℚ) := by
      rw [hk, Nat.add_sub_cancel, show (((k + 52 : Nat) : ℤ) - 52) = k by omega, zpow_natCast]
      push_cast
      rfl
    rw [if_neg hsmall, hmultiple]
    by_cases hexp : (k : ℤ) ≤ y.exponent
    · obtain ⟨j, hj⟩ := exists_multiple hexp
      rw [hj]
      exact divNearest_nearest n j hpos
    · -- the least multiple with 53 bits stands between the two
      have hy := magnitude_lt (not_le.mp hexp)
      have hbest := divNearest_nearest n band hpos
      have hleast : ((band * 2 ^ k : Nat) : ℚ) ≤ n := by
        have hlow : 2 ^ n.log2 ≤ n := Nat.log2_self_le (by omega)
        rw [hk, Nat.add_comm, Nat.pow_add] at hlow
        exact_mod_cast hlow
      calc _ ≤ |((band * 2 ^ k : Nat) : ℚ) - n| := hbest
        _ = n - ((band * 2 ^ k : Nat) : ℚ) := by
          rw [abs_sub_comm, abs_of_nonneg (sub_nonneg.mpr hleast)]
        _ ≤ n - y.magnitude := by linarith
        _ ≤ |y.magnitude - n| := by
          rw [abs_sub_comm]
          exact le_abs_self _

/-- **A whole number of 64 bits has a nearest number.** -/
theorem nearest_ofRatio (negative : Bool) (hn : n < 0x10000000000000000) :
    ∃ x, ofRatio? negative n 1 = some x ∧ x.negative = negative ∧
      ∀ y : Binary64, |x.magnitude - n| ≤ |y.magnitude - n| := by
  have hrank : rankOf n 1 < 2047 * band := by
    rcases Nat.eq_zero_or_pos n with rfl | hpos
    · decide
    · have hlog : n.log2 < 64 := (Nat.log2_lt (by omega)).mpr hn
      have hhigh := (significandOf_bounds hpos).2
      rw [rankOf_one hpos]
      have hmul := Nat.mul_le_mul_right band (show n.log2 + 1022 ≤ 1085 by omega)
      have hband : 0 < band := by decide
      omega
  refine ⟨⟨negative, rankOf n 1, hrank⟩, dif_pos hrank, rfl, fun y => ?_⟩
  rcases Nat.eq_zero_or_pos n with rfl | hpos
  · have hzero : (⟨negative, rankOf 0 1, hrank⟩ : Binary64).magnitude = 0 := by
      simp [magnitude, significand, rankOf, band]
    rw [hzero, Nat.cast_zero, sub_zero, abs_zero]
    exact abs_nonneg _
  · exact nearest_of_rankOf hpos rfl y

end Whole

/-- No number is nearer to a whole number than the nearest magnitude with its sign. -/
theorem nearest_signed {x : Binary64} {n : Nat}
    (h : ∀ y : Binary64, |x.magnitude - n| ≤ |y.magnitude - n|) (y : Binary64) :
    |x.value - (if x.negative then -(n : ℚ) else n)| ≤
      |y.value - (if x.negative then -(n : ℚ) else n)| := by
  have hx : |x.value - (if x.negative then -(n : ℚ) else n)| = |x.magnitude - n| := by
    unfold value
    cases x.negative
    · rfl
    · rw [if_pos rfl, if_pos rfl, ← abs_neg]
      ring_nf
  rw [hx]
  have hy := h y
  have hzero := h (zero false)
  have hnonneg := y.magnitude_nonneg
  have hn : (0 : ℚ) ≤ n := Nat.cast_nonneg _
  have hz : (zero false).magnitude = 0 := by simp [magnitude, significand, zero, band]
  rw [hz, zero_sub, abs_neg, abs_of_nonneg hn] at hzero
  unfold value
  cases x.negative <;> cases y.negative <;> simp only [Bool.false_eq_true, if_true, if_false]
  · exact hy
  · -- on the other side of zero there is nothing nearer than zero
    refine hzero.trans ?_
    rw [abs_sub_comm, abs_of_nonneg (by linarith)]
    linarith
  · refine hzero.trans ?_
    rw [abs_of_nonneg (by linarith)]
    linarith
  · have hneg : -y.magnitude - -(n : ℚ) = -(y.magnitude - n) := by ring
    rw [hneg, abs_neg]
    exact hy

end CrashCourier.Binary64
