import CrashCourier.Decimal.Shortest
import CrashCourier.Proofs.Binary64
import Mathlib.Algebra.Order.Field.Basic
import Mathlib.Tactic.FieldSimp
import Mathlib.Tactic.NormNum
import Mathlib.Tactic.Positivity

/-!
# The interval of a binary64 number

Every fraction in the interval of a number is rounded to that number (`rankOf_of_mem`). The interval
reaches half way to the neighbours, so that inside it the rounded quotient is the significand. The ends
are ties, and they belong to the interval if the significand is even.

One case is different. Below the least significand of an exponent the magnitudes are twice as dense,
and a fraction there is rounded at the exponent below, to the greatest significand of that and one
more. That is the rank of the least significand above it.
-/

namespace CrashCourier.Binary64

/-! ## Fractions and powers of two -/

theorem band_eq : (band : ℚ) = 2 ^ (52 : ℤ) := by
  rw [band]
  norm_num

theorem two_zpow_pos (e : ℤ) : (0 : ℚ) < 2 ^ e :=
  zpow_pos (by norm_num) e

theorem two_zpow_add_one (e : ℤ) : (2 : ℚ) ^ (e + 1) = 2 * 2 ^ e := by
  rw [zpow_add₀ (by norm_num), zpow_one, mul_comm]

/-- A fraction multiplied by a power of a whole number. -/
def powered (b n d : Nat) (e : ℤ) : Nat × Nat :=
  if 0 ≤ e then (n * Nat.pow b e.toNat, d) else (n, d * Nat.pow b (-e).toNat)

theorem powered_ratio (b n d : Nat) (e : ℤ) :
    ((powered b n d e).1 : ℚ) / (powered b n d e).2 = n / d * (b : ℚ) ^ e := by
  unfold powered
  by_cases he : 0 ≤ e
  · obtain ⟨k, rfl⟩ := Int.eq_ofNat_of_zero_le he
    rw [if_pos he, Int.toNat_natCast, Nat.pow_eq, zpow_natCast]
    push_cast
    ring
  · obtain ⟨k, rfl⟩ : ∃ k : Nat, e = -(k : ℤ) := ⟨(-e).toNat, by omega⟩
    rw [if_neg he, neg_neg, Int.toNat_natCast, Nat.pow_eq, zpow_neg, zpow_natCast]
    push_cast
    rw [div_mul_eq_div_div, div_eq_mul_inv (_ / _)]

theorem powered_fst_pos {b n : Nat} (hb : 0 < b) (hn : 0 < n) (d : Nat) (e : ℤ) :
    0 < (powered b n d e).1 := by
  unfold powered
  split
  · exact Nat.mul_pos hn (Nat.pow_pos hb)
  · exact hn

theorem powered_snd_pos {b d : Nat} (hb : 0 < b) (n : Nat) (hd : 0 < d) (e : ℤ) :
    0 < (powered b n d e).2 := by
  unfold powered
  split
  · exact hd
  · exact Nat.mul_pos hd (Nat.pow_pos hb)

/-- A fraction that is multiplied by a power of two. -/
theorem shift_ratio (n d : Nat) (e : ℤ) :
    ((shift n d e).1 : ℚ) / (shift n d e).2 = n / d * 2 ^ e :=
  powered_ratio 2 n d e

theorem shift_pos {n d : Nat} (hd : 0 < d) (e : ℤ) : 0 < (shift n d e).2 :=
  powered_snd_pos (by decide) n hd e

theorem log2_bounds {n : Nat} (hn : 0 < n) :
    (2 : ℚ) ^ (n.log2 : ℤ) ≤ n ∧ (n : ℚ) < 2 ^ ((n.log2 : ℤ) + 1) := by
  have hlow : 2 ^ n.log2 ≤ n := Nat.log2_self_le (by omega)
  have hhigh : n < 2 ^ (n.log2 + 1) := Nat.lt_log2_self
  have hexp : ((n.log2 : ℤ) + 1) = ((n.log2 + 1 : Nat) : ℤ) := by
    push_cast
    rfl
  rw [hexp, zpow_natCast, zpow_natCast]
  exact ⟨by exact_mod_cast hlow, by exact_mod_cast hhigh⟩

/-! ## The exponent of a fraction -/

section Ratio

variable {n d : Nat}

/-- The lengths of numerator and denominator leave two exponents open. -/
theorem ratio_bounds (hn : 0 < n) (hd : 0 < d) :
    (band : ℚ) * 2 ^ ((n.log2 : ℤ) - d.log2 - 53) ≤ n / d ∧
      (n : ℚ) / d < 2 * band * 2 ^ ((n.log2 : ℤ) - d.log2 - 53 + 1) := by
  obtain ⟨hnlow, hnhigh⟩ := log2_bounds hn
  obtain ⟨hdlow, hdhigh⟩ := log2_bounds hd
  have hdpos : (0 : ℚ) < d := by exact_mod_cast hd
  have hlow : (band : ℚ) * 2 ^ ((n.log2 : ℤ) - d.log2 - 53) * 2 ^ ((d.log2 : ℤ) + 1) =
      2 ^ (n.log2 : ℤ) := by
    rw [band_eq, ← zpow_add₀ (by norm_num), ← zpow_add₀ (by norm_num)]
    congr 1
    ring
  have hhigh : 2 * (band : ℚ) * 2 ^ ((n.log2 : ℤ) - d.log2 - 53 + 1) * 2 ^ (d.log2 : ℤ) =
      2 ^ ((n.log2 : ℤ) + 1) := by
    have htwo : (2 : ℚ) = 2 ^ (1 : ℤ) := (zpow_one 2).symm
    rw [band_eq]
    nth_rewrite 1 [htwo]
    rw [← zpow_add₀ (by norm_num), ← zpow_add₀ (by norm_num), ← zpow_add₀ (by norm_num)]
    congr 1
    ring
  refine ⟨(le_div_iff₀ hdpos).mpr ?_, (div_lt_iff₀ hdpos).mpr ?_⟩
  · have hmul := mul_le_mul_of_nonneg_left hdhigh.le
      (show (0 : ℚ) ≤ band * 2 ^ ((n.log2 : ℤ) - d.log2 - 53) by positivity)
    rw [hlow] at hmul
    exact hmul.trans hnlow
  · have hmul := mul_le_mul_of_nonneg_left hdlow
      (show (0 : ℚ) ≤ 2 * band * 2 ^ ((n.log2 : ℤ) - d.log2 - 53 + 1) by positivity)
    rw [hhigh] at hmul
    exact hnhigh.trans_le hmul

theorem exponentOf_eq_max (n d : Nat) : exponentOf n d = max (-1074)
    (if 2 * band * (shift n d (-((n.log2 : ℤ) - d.log2 - 53))).2 ≤
        (shift n d (-((n.log2 : ℤ) - d.log2 - 53))).1
      then (n.log2 : ℤ) - d.log2 - 53 + 1 else (n.log2 : ℤ) - d.log2 - 53) := rfl

/-- The exponent at which a fraction has 53 bits before the point, unless it is the least one. -/
theorem exists_exponentOf (hn : 0 < n) (hd : 0 < d) :
    ∃ e : ℤ, (band : ℚ) * 2 ^ e ≤ n / d ∧ (n : ℚ) / d < 2 * band * 2 ^ e ∧
      exponentOf n d = max (-1074) e := by
  obtain ⟨hlow, hhigh⟩ := ratio_bounds hn hd
  rw [exponentOf_eq_max]
  generalize (n.log2 : ℤ) - d.log2 - 53 = e at hlow hhigh ⊢
  have hpos : (0 : ℚ) < (shift n d (-e)).2 := by exact_mod_cast shift_pos hd (-e)
  have htest : 2 * band * (shift n d (-e)).2 ≤ (shift n d (-e)).1 ↔
      2 * (band : ℚ) * 2 ^ e ≤ n / d := by
    have hcast : 2 * band * (shift n d (-e)).2 ≤ (shift n d (-e)).1 ↔
        2 * (band : ℚ) * (shift n d (-e)).2 ≤ (shift n d (-e)).1 := by
      exact_mod_cast Iff.rfl
    rw [hcast, ← le_div_iff₀ hpos, shift_ratio, zpow_neg, ← div_eq_mul_inv,
      le_div_iff₀ (two_zpow_pos e)]
  by_cases hfull : 2 * (band : ℚ) * 2 ^ e ≤ n / d
  · refine ⟨e + 1, ?_, hhigh, by rw [if_pos (htest.mpr hfull)]⟩
    rw [two_zpow_add_one]
    linarith
  · exact ⟨e, hlow, not_le.mp hfull, by rw [if_neg (mt htest.mp hfull)]⟩

/-- An exponent at which a fraction has 53 bits before the point is the only one. -/
theorem le_of_bounds {v : ℚ} {e e' : ℤ} (hlow : (band : ℚ) * 2 ^ e ≤ v)
    (hhigh : v < 2 * band * 2 ^ e') : e ≤ e' := by
  by_contra hlt
  have hmono : (2 : ℚ) ^ (e' + 1) ≤ 2 ^ e := zpow_le_zpow_right₀ (by norm_num) (by omega)
  have hband : (0 : ℚ) < band := by
    rw [band_eq]
    positivity
  have hmul := mul_le_mul_of_nonneg_left hmono hband.le
  rw [two_zpow_add_one] at hmul
  linarith

/-- **The exponent of a fraction** is the one at which it has 53 bits before the point, or the least
one if it has no more there. -/
theorem exponentOf_eq (hn : 0 < n) (hd : 0 < d) {e : ℤ} (he : -1074 ≤ e)
    (hlow : e = -1074 ∨ (band : ℚ) * 2 ^ e ≤ n / d) (hhigh : (n : ℚ) / d < 2 * band * 2 ^ e) :
    exponentOf n d = e := by
  obtain ⟨e', hlow', hhigh', hexp⟩ := exists_exponentOf hn hd
  have hle : e' ≤ e := le_of_bounds hlow' hhigh
  rcases hlow with rfl | hlow
  · rw [hexp, max_eq_left hle]
  · have hge : e ≤ e' := le_of_bounds hlow hhigh'
    rw [hexp, le_antisymm hle hge, max_eq_right he]

/-! ## The rank of a fraction -/

/-- A quotient is rounded to the whole number that it is within a half of, a tie only to an even one. -/
theorem divNearest_of_le {m : Nat} (hd : 0 < d) (hlow : 2 * (d * m) ≤ 2 * n + d)
    (hhigh : 2 * n ≤ 2 * (d * m) + d)
    (heven : m % 2 = 1 → 2 * (d * m) < 2 * n + d ∧ 2 * n < 2 * (d * m) + d) :
    divNearest n d = m := by
  have hdiv := Nat.div_add_mod n d
  have hmod := Nat.mod_lt n hd
  have hle : n / d ≤ m := by
    by_contra hlt
    have hmul := Nat.mul_le_mul_left d (show m + 1 ≤ n / d by omega)
    rw [Nat.mul_succ] at hmul
    omega
  have hge : m ≤ n / d + 1 := by
    by_contra hlt
    have hmul := Nat.mul_le_mul_left d (show n / d + 2 ≤ m by omega)
    rw [Nat.mul_add, Nat.mul_comm d 2] at hmul
    omega
  unfold divNearest
  dsimp only
  rcases Nat.lt_or_ge (n / d) m with hbelow | hsame
  · -- the number is the next one above the whole part
    obtain rfl : m = n / d + 1 := by omega
    rw [Nat.mul_succ] at hlow heven
    rw [if_pos]
    by_cases htie : d = 2 * (n % d)
    · exact .inr ⟨htie, by omega⟩
    · exact .inl (by omega)
  · obtain rfl : m = n / d := by omega
    rw [if_neg]
    intro hup
    rcases hup with hup | ⟨htie, hodd⟩
    · omega
    · have hright := (heven hodd).2
      omega

/-- The same of the fraction. -/
theorem divNearest_eq {m : Nat} (hd : 0 < d) (hlow : (2 * m : ℚ) - 1 ≤ 2 * (n / d))
    (hhigh : 2 * ((n : ℚ) / d) ≤ 2 * m + 1)
    (heven : m % 2 = 1 → (2 * m : ℚ) - 1 < 2 * (n / d) ∧ 2 * ((n : ℚ) / d) < 2 * m + 1) :
    divNearest n d = m := by
  have hdpos : (0 : ℚ) < d := by exact_mod_cast hd
  rw [mul_div_assoc', le_div_iff₀ hdpos] at hlow
  rw [mul_div_assoc', div_le_iff₀ hdpos] at hhigh
  rw [mul_div_assoc', lt_div_iff₀ hdpos, div_lt_iff₀ hdpos] at heven
  refine divNearest_of_le hd ?_ ?_ ?_
  · have h : (2 * (d * m) : ℚ) ≤ 2 * n + d := by linarith
    exact_mod_cast h
  · have h : (2 * n : ℚ) ≤ 2 * (d * m) + d := by linarith
    exact_mod_cast h
  · intro hodd
    obtain ⟨hl, hh⟩ := heven hodd
    have hleft : (2 * (d * m) : ℚ) < 2 * n + d := by linarith
    have hright : (2 * n : ℚ) < 2 * (d * m) + d := by linarith
    exact ⟨by exact_mod_cast hleft, by exact_mod_cast hright⟩

/-- **The rank of a fraction** from its exponent and the whole number next to its quotient. -/
theorem rankOf_eq (hn : 0 < n) (hd : 0 < d) {e : ℤ} {m : Nat} (he : -1074 ≤ e)
    (hlow : e = -1074 ∨ (band : ℚ) * 2 ^ e ≤ n / d) (hhigh : (n : ℚ) / d < 2 * band * 2 ^ e)
    (hmlow : ((2 * m : ℚ) - 1) * 2 ^ e ≤ 2 * (n / d))
    (hmhigh : 2 * ((n : ℚ) / d) ≤ (2 * m + 1) * 2 ^ e)
    (heven : m % 2 = 1 → ((2 * m : ℚ) - 1) * 2 ^ e < 2 * (n / d) ∧
      2 * ((n : ℚ) / d) < (2 * m + 1) * 2 ^ e) :
    rankOf n d = (e + 1074).toNat * band + m := by
  have hexp := exponentOf_eq hn hd he hlow hhigh
  have hpos := two_zpow_pos e
  have hscaled : ((shift n d (-e)).1 : ℚ) / (shift n d (-e)).2 = n / d / 2 ^ e := by
    rw [shift_ratio, zpow_neg, div_eq_mul_inv (_ / _)]
  have hround : divNearest (shift n d (-e)).1 (shift n d (-e)).2 = m := by
    refine divNearest_eq (shift_pos hd _) ?_ ?_ ?_
    · rw [hscaled, mul_div_assoc', le_div_iff₀ hpos]
      exact hmlow
    · rw [hscaled, mul_div_assoc', div_le_iff₀ hpos]
      exact hmhigh
    · intro hodd
      obtain ⟨hl, hh⟩ := heven hodd
      rw [hscaled, mul_div_assoc', lt_div_iff₀ hpos, div_lt_iff₀ hpos]
      exact ⟨hl, hh⟩
  have hrank : rankOf n d = (exponentOf n d + 1074).toNat * band +
      divNearest (shift n d (-exponentOf n d)).1 (shift n d (-exponentOf n d)).2 := by
    unfold rankOf
    rw [if_neg (by omega)]
  rw [hrank, hexp, hround]

end Ratio

/-! ## The interval -/

theorem exponent_ge (x : Binary64) : -1074 ≤ x.exponent := by
  unfold exponent
  split
  · exact le_refl _
  · rename_i hbig
    have hdiv : 1 ≤ x.rank / band := (Nat.one_le_div_iff (by decide)).mpr (by omega)
    omega

theorem band_le_significand {x : Binary64} (h : -1074 < x.exponent) : band ≤ x.significand := by
  unfold exponent at h
  unfold significand
  split at h
  · omega
  · rename_i hbig
    rw [if_neg hbig]
    omega

/-- The rank is put together from exponent and significand. -/
theorem rank_eq (x : Binary64) :
    x.rank = (x.exponent + 1074).toNat * band + x.significand := by
  unfold exponent significand
  by_cases hsmall : x.rank < band
  · rw [if_pos hsmall, if_pos hsmall, neg_add_cancel, Int.toNat_zero, Nat.zero_mul, Nat.zero_add]
  · have hdiv : 1 ≤ x.rank / band := (Nat.one_le_div_iff (by decide)).mpr (by omega)
    have hsplit := Nat.div_add_mod x.rank band
    have hexp : (((x.rank / band : Nat) : ℤ) - 1075 + 1074).toNat = x.rank / band - 1 := by omega
    rw [if_neg hsmall, if_neg hsmall, hexp, Nat.sub_mul]
    have hmul := Nat.mul_le_mul_right band hdiv
    rw [Nat.mul_comm band] at hsplit
    omega

end CrashCourier.Binary64

namespace CrashCourier.Decimal

/-- Whether a number of quarters lies in the interval. -/
def Interval.Mem (i : Interval) (q : ℚ) : Prop :=
  i.low ≤ q ∧ q ≤ i.high ∧ (i.closed = false → i.low < q ∧ q < i.high)

/-- Whether a fraction lies in the interval of a number. -/
def Between (x : Binary64) (v : ℚ) : Prop :=
  (Interval.of x).Mem (4 * v / 2 ^ x.exponent)

end CrashCourier.Decimal

namespace CrashCourier.Binary64

open Decimal

variable {x : Binary64} {n d : Nat}

/-- The ends of the interval are where the ties are. -/
theorem closed_of (x : Binary64) : (Interval.of x).closed = false ↔ x.significand % 2 = 1 := by
  have hmod : x.significand % 2 = 0 ∨ x.significand % 2 = 1 := by omega
  rcases hmod with h | h
  · simp [Interval.of, h]
  · simp [Interval.of, h]

theorem high_of (x : Binary64) : (Interval.of x).high = 4 * x.significand + 2 := rfl

theorem low_of_least (h : x.significand = band ∧ -1074 < x.exponent) :
    (Interval.of x).low = 4 * band - 1 := by
  rw [← h.1]
  exact if_pos h

theorem low_of_not_least (h : ¬ (x.significand = band ∧ -1074 < x.exponent)) :
    (Interval.of x).low = 4 * x.significand - 2 :=
  if_neg h

/-- The lower end as a fraction: half way to the neighbour below, or half of that. -/
theorem low_cast (hx : 0 < x.significand) :
    (4 * x.significand : ℚ) - 2 ≤ (Interval.of x).low ∧
      ((Interval.of x).low : ℚ) ≤ 4 * x.significand - 1 ∧
      (x.significand = band → -1074 < x.exponent → ((Interval.of x).low : ℚ) = 4 * band - 1) := by
  by_cases hleast : x.significand = band ∧ -1074 < x.exponent
  · have hlow : (Interval.of x).low + 1 = 4 * band := by
      rw [low_of_least hleast]
      decide
    have hlow' : ((Interval.of x).low : ℚ) + 1 = 4 * band := by exact_mod_cast hlow
    rw [hleast.1]
    exact ⟨by linarith, by linarith, fun _ _ => by linarith⟩
  · have hlow : (Interval.of x).low + 2 = 4 * x.significand := by
      rw [low_of_not_least hleast]
      omega
    have hlow' : ((Interval.of x).low : ℚ) + 2 = 4 * x.significand := by exact_mod_cast hlow
    exact ⟨by linarith, by linarith, fun hband hexp => absurd ⟨hband, hexp⟩ hleast⟩

/-- What it takes to lie in the interval, without quarters. -/
theorem between_bounds {v : ℚ} (h : Between x v) :
    (Interval.of x).low * 2 ^ x.exponent ≤ 4 * v ∧
      4 * v ≤ (4 * x.significand + 2) * 2 ^ x.exponent ∧
      (x.significand % 2 = 1 → (Interval.of x).low * 2 ^ x.exponent < 4 * v ∧
        4 * v < (4 * x.significand + 2) * 2 ^ x.exponent) := by
  obtain ⟨hlow, hhigh, hopen⟩ := h
  have hpos := two_zpow_pos x.exponent
  rw [closed_of, lt_div_iff₀ hpos, div_lt_iff₀ hpos] at hopen
  rw [le_div_iff₀ hpos] at hlow
  rw [div_le_iff₀ hpos] at hhigh
  have htop : ((Interval.of x).high : ℚ) = 4 * x.significand + 2 := by
    rw [high_of]
    push_cast
    rfl
  rw [htop] at hhigh hopen
  exact ⟨hlow, hhigh, hopen⟩

/-- What lies in the interval of a number that is not zero is not zero. -/
theorem pos_of_between (hx : 0 < x.significand) (h : Between x (n / d)) : 0 < n := by
  have hpos := two_zpow_pos x.exponent
  have hone : (1 : ℚ) ≤ x.significand := by exact_mod_cast hx
  have hlow := (mul_le_mul_of_nonneg_right (low_cast hx).1 hpos.le).trans (between_bounds h).1
  rcases Nat.eq_zero_or_pos n with rfl | hn
  · have hend : (0 : ℚ) < (4 * x.significand - 2) * 2 ^ x.exponent :=
      mul_pos (by linarith) hpos
    rw [Nat.cast_zero, zero_div, mul_zero] at hlow
    linarith
  · exact hn

/-- Below the least significand of its exponent, what lies in the interval of a number is rounded at
the exponent below, up to the least significand of this one. -/
theorem rankOf_of_below (hn : 0 < n) (hd : 0 < d) (hsig : x.significand = band)
    (hexp : -1074 < x.exponent) (hunder : (n : ℚ) / d < band * 2 ^ x.exponent)
    (h : Between x (n / d)) : rankOf n d = x.rank := by
  have hsigpos : 0 < x.significand := by
    rw [hsig]
    decide
  have hlow := (between_bounds h).1
  have hhalf : (2 : ℚ) ^ x.exponent = 2 * 2 ^ (x.exponent - 1) := by
    rw [← two_zpow_add_one, sub_add_cancel]
  rw [(low_cast hsigpos).2.2 hsig hexp, hhalf] at hlow
  rw [hhalf] at hunder
  have hband : (1 : ℚ) ≤ band := by
    rw [band]
    norm_num
  have hscale : 2 ^ (x.exponent - 1) ≤ (band : ℚ) * 2 ^ (x.exponent - 1) :=
    le_mul_of_one_le_left (two_zpow_pos _).le hband
  have hrank := rankOf_eq (m := 2 * band) hn hd (e := x.exponent - 1) (by omega)
    (.inr (by linarith)) (by linarith) (by push_cast; linarith) (by push_cast; linarith)
    (fun hodd => absurd hodd (by omega))
  rw [hrank, rank_eq x, hsig]
  have hsucc : (x.exponent + 1074).toNat = (x.exponent - 1 + 1074).toNat + 1 := by omega
  rw [hsucc, Nat.add_mul, Nat.one_mul]
  omega

/-- From there on it is rounded at the exponent of the number. -/
theorem rankOf_of_full (hx : 0 < x.significand) (hn : 0 < n) (hd : 0 < d)
    (hfull : x.exponent = -1074 ∨ (band : ℚ) * 2 ^ x.exponent ≤ n / d)
    (h : Between x (n / d)) : rankOf n d = x.rank := by
  obtain ⟨hlow, hhigh, hopen⟩ := between_bounds h
  have hpos := two_zpow_pos x.exponent
  have hend := mul_le_mul_of_nonneg_right (low_cast hx).1 hpos.le
  have hsig : (x.significand : ℚ) + 1 ≤ 2 * band := by exact_mod_cast x.significand_lt
  have hmul := mul_le_mul_of_nonneg_right hsig hpos.le
  have hrank := rankOf_eq (m := x.significand) hn hd x.exponent_ge hfull (by linarith)
    (by linarith) (by linarith) (fun hodd => by
      obtain ⟨hleft, hright⟩ := hopen hodd
      exact ⟨by linarith, by linarith⟩)
  rw [hrank, rank_eq x]

/-- **What lies in the interval of a number is rounded to it.** -/
theorem rankOf_of_between (hx : 0 < x.significand) (hd : 0 < d) (h : Between x (n / d)) :
    rankOf n d = x.rank := by
  have hn := pos_of_between hx h
  have hpos := two_zpow_pos x.exponent
  rcases Int.lt_or_eq_of_le x.exponent_ge with hexp | hexp
  · rcases Nat.lt_or_eq_of_le (band_le_significand hexp) with hsig | hsig
    · -- the interval begins above the least significand
      have hsig' : (band : ℚ) + 1 ≤ x.significand := by exact_mod_cast hsig
      have hmul := mul_le_mul_of_nonneg_right hsig' hpos.le
      have hend := mul_le_mul_of_nonneg_right (low_cast hx).1 hpos.le
      have hlow := (between_bounds h).1
      exact rankOf_of_full hx hn hd (.inr (by linarith)) h
    · rcases lt_or_ge ((n : ℚ) / d) (band * 2 ^ x.exponent) with hunder | hover
      · exact rankOf_of_below hn hd hsig.symm hexp hunder h
      · exact rankOf_of_full hx hn hd (.inr hover) h
  · exact rankOf_of_full hx hn hd (.inl hexp.symm) h

/-- A number of the same magnitude as another, with this sign. -/
def withSign (x : Binary64) (negative : Bool) : Binary64 :=
  { x with negative }

/-- **A fraction in the interval of a number gives that number.** -/
theorem ofRatio?_of_between (negative : Bool) (hx : 0 < x.significand) (hd : 0 < d)
    (h : Between x (n / d)) : ofRatio? negative n d = some (x.withSign negative) := by
  have hrank := rankOf_of_between hx hd h
  have hlt : rankOf n d < 2047 * band := by
    rw [hrank]
    exact x.rank_lt
  unfold ofRatio?
  rw [dif_pos hlt]
  simp only [withSign, hrank]

end CrashCourier.Binary64
