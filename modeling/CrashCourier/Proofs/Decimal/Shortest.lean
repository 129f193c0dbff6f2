import CrashCourier.Proofs.Decimal.Interval

/-!
# The shortest decimal lies in the interval

A number is written by a decimal of its interval, so a reader that rounds correctly gives the number
back. What has to be shown is that the search does not come to its end: 17 digits are always enough,
because the grid of 17 digits is finer than the interval is wide, and then one of the two points next
to the number lies in it.

The decimal has at most 17 digits, and its first digit stands within the reach of the exponents that a
numeral may have. That is all a reader has to know of it.
-/

namespace CrashCourier.Decimal

open Binary64 (band two_zpow_pos powered_ratio powered_fst_pos powered_snd_pos)

/-! ## Powers of ten -/

theorem ten_zpow_pos (e : ℤ) : (0 : ℚ) < 10 ^ e :=
  zpow_pos (by norm_num) e

theorem ten_zpow_add_one (e : ℤ) : (10 : ℚ) ^ (e + 1) = 10 * 10 ^ e := by
  rw [zpow_add₀ (by norm_num), zpow_one, mul_comm]

theorem two_zpow_le_ten_zpow {e : ℤ} (he : 0 ≤ e) : (2 : ℚ) ^ e ≤ 10 ^ e :=
  zpow_le_zpow_left₀ he (by norm_num) (by norm_num)

theorem ten_zpow_le_two_zpow {e : ℤ} (he : e ≤ 0) : (10 : ℚ) ^ e ≤ 2 ^ e := by
  obtain ⟨k, rfl⟩ : ∃ k : Nat, e = -(k : ℤ) := ⟨(-e).toNat, by omega⟩
  rw [zpow_neg, zpow_neg]
  exact inv_anti₀ (two_zpow_pos k) (two_zpow_le_ten_zpow (by omega))

/-- The decimal as a fraction. -/
def value (x : Decimal) : ℚ :=
  x.digits * 10 ^ x.exponent

theorem digitCount_le_iff {n k : Nat} (hk : 0 < k) : digitCount n ≤ k ↔ n < 10 ^ k :=
  Nat.length_toDigits_le_iff (by decide) hk

theorem digitCount_pos (n : Nat) : 0 < digitCount n :=
  Nat.length_toDigits_pos

theorem lt_pow_digitCount (n : Nat) : n < 10 ^ digitCount n :=
  (digitCount_le_iff (digitCount_pos n)).mp (Nat.le_refl _)

/-- A number with zeros behind it has that many digits more. -/
theorem digits_mul_le {n e k : Nat} (h : digitCount n + e ≤ k) : n * 10 ^ e ≤ 10 ^ k := by
  refine le_trans ?_ (Nat.pow_le_pow_right (by decide) h)
  rw [pow_add]
  exact Nat.mul_le_mul_right _ (lt_pow_digitCount n).le

theorem pow_le_of_digitCount {n : Nat} (hn : 0 < n) : 10 ^ (digitCount n - 1) ≤ n := by
  rcases Nat.eq_zero_or_pos (digitCount n - 1) with hone | hmore
  · rw [hone]
    exact hn
  · by_contra hlt
    have hle := (digitCount_le_iff hmore).mpr (not_le.mp hlt)
    have hpos := digitCount_pos n
    omega

/-- A number stands between the powers of ten at its first digit. -/
theorem digitCount_bounds {n : Nat} (hn : 0 < n) :
    (10 : ℚ) ^ ((digitCount n : ℤ) - 1) ≤ n ∧ (n : ℚ) + 1 ≤ 10 ^ (digitCount n : ℤ) := by
  have hpos := digitCount_pos n
  have hlow := pow_le_of_digitCount hn
  have hhigh : n + 1 ≤ 10 ^ digitCount n := lt_pow_digitCount n
  have hexp : ((digitCount n : ℤ) - 1) = ((digitCount n - 1 : Nat) : ℤ) := by omega
  rw [hexp, zpow_natCast, zpow_natCast]
  exact ⟨by exact_mod_cast hlow, by exact_mod_cast hhigh⟩

/-- A decimal stands between the powers of ten at its first digit. -/
theorem value_bounds {x : Decimal} (hx : 0 < x.digits) :
    (10 : ℚ) ^ (x.exponent + digitCount x.digits - 1) ≤ x.value ∧
      x.value < 10 ^ (x.exponent + digitCount x.digits) := by
  obtain ⟨hlow, hhigh⟩ := digitCount_bounds hx
  have hpos := ten_zpow_pos x.exponent
  have hexp : x.exponent + digitCount x.digits - 1 = ((digitCount x.digits : ℤ) - 1) + x.exponent := by
    ring
  rw [hexp, add_comm x.exponent, zpow_add₀ (by norm_num), zpow_add₀ (by norm_num)]
  refine ⟨mul_le_mul_of_nonneg_right hlow hpos.le, mul_lt_mul_of_pos_right ?_ hpos⟩
  linarith

/-- A fraction that is multiplied by a power of ten. -/
theorem scale_ratio (n d : Nat) (e : ℤ) :
    ((scale n d e).1 : ℚ) / (scale n d e).2 = n / d * 10 ^ e :=
  powered_ratio 10 n d e

theorem scale_pos {n d : Nat} (hn : 0 < n) (hd : 0 < d) (e : ℤ) :
    0 < (scale n d e).1 ∧ 0 < (scale n d e).2 :=
  ⟨powered_fst_pos (by decide) hn d e, powered_snd_pos (by decide) n hd e⟩

section Ratio

variable {n d : Nat}

/-- A quotient stands between its whole part and the next number. -/
theorem floor_bounds (hd : 0 < d) :
    ((n / d : Nat) : ℚ) ≤ n / d ∧ (n : ℚ) / d < ((n / d : Nat) : ℚ) + 1 := by
  have hdpos : (0 : ℚ) < d := by exact_mod_cast hd
  have hlt : n < (n / d + 1) * d := by
    rw [Nat.mul_comm]
    exact Nat.lt_mul_div_succ n hd
  rw [le_div_iff₀ hdpos, div_lt_iff₀ hdpos]
  exact ⟨by exact_mod_cast Nat.div_mul_le_self n d, by exact_mod_cast hlt⟩

/-- The inverse of a proper fraction stands above the number before its ceiling. -/
theorem ceil_bounds (hn : 0 < n) (hlt : n < d) :
    0 < (d + n - 1) / n - 1 ∧ (n : ℚ) * ((d + n - 1) / n - 1 : Nat) < d ∧
      (d : ℚ) ≤ n * (((d + n - 1) / n - 1 : Nat) + 1) := by
  have hmod := Nat.div_add_mod (d + n - 1) n
  have hrem := Nat.mod_lt (d + n - 1) hn
  obtain ⟨q, hq⟩ : ∃ q, (d + n - 1) / n = q + 1 := by
    refine ⟨(d + n - 1) / n - 1, ?_⟩
    have hpos : 0 < (d + n - 1) / n := Nat.div_pos (by omega) hn
    omega
  rw [hq, Nat.mul_succ] at hmod
  rw [hq, Nat.add_sub_cancel]
  have hqpos : 0 < q := by
    rcases Nat.eq_zero_or_pos q with rfl | hpos
    · omega
    · exact hpos
  have hdown : n * q < d := by omega
  have hup : d ≤ n * (q + 1) := by
    rw [Nat.mul_succ]
    omega
  exact ⟨hqpos, by exact_mod_cast hdown, by exact_mod_cast hup⟩

/-- **The first digit of a fraction** stands at its leading exponent. -/
theorem leadingExponent_bounds (hn : 0 < n) (hd : 0 < d) :
    (10 : ℚ) ^ leadingExponent n d ≤ n / d ∧ (n : ℚ) / d < 10 ^ (leadingExponent n d + 1) := by
  have hdpos : (0 : ℚ) < d := by exact_mod_cast hd
  have hnpos : (0 : ℚ) < n := by exact_mod_cast hn
  unfold leadingExponent
  by_cases hle : d ≤ n
  · obtain ⟨hlow, hhigh⟩ := digitCount_bounds (Nat.div_pos hle hd)
    obtain ⟨hfloor, hnext⟩ := floor_bounds (n := n) hd
    rw [if_pos hle, sub_add_cancel]
    exact ⟨hlow.trans hfloor, hnext.trans_le hhigh⟩
  · obtain ⟨hpos, hdown, hup⟩ := ceil_bounds hn (not_le.mp hle)
    rw [if_neg hle]
    generalize (d + n - 1) / n - 1 = q at hpos hdown hup ⊢
    obtain ⟨hlow, hhigh⟩ := digitCount_bounds hpos
    refine ⟨?_, ?_⟩
    · rw [zpow_neg, inv_eq_one_div, div_le_div_iff₀ (ten_zpow_pos _) hdpos, one_mul]
      exact hup.trans (mul_le_mul_of_nonneg_left hhigh hnpos.le)
    · have hexp : -(digitCount q : ℤ) + 1 = -((digitCount q : ℤ) - 1) := by ring
      rw [hexp, zpow_neg, inv_eq_one_div, div_lt_div_iff₀ hdpos (ten_zpow_pos _), one_mul]
      exact (mul_le_mul_of_nonneg_left hlow hnpos.le).trans_lt hdown

end Ratio

/-! ## One grid -/

section Grid

variable {i : Interval} {n d : Nat} {e : ℤ}

theorem holds_iff {k l : Nat} (hl : 0 < l) : i.holds k l = true ↔ i.Mem (k / l) := by
  have hpos : (0 : ℚ) < l := by exact_mod_cast hl
  unfold Interval.holds Interval.Mem
  rw [le_div_iff₀ hpos, div_le_iff₀ hpos, lt_div_iff₀ hpos, div_lt_iff₀ hpos]
  cases i.closed with
  | true =>
      simp only [if_true, Bool.and_eq_true, decide_eq_true_eq, Bool.true_eq_false, false_imp_iff,
        and_true]
      exact_mod_cast Iff.rfl
  | false =>
      simp only [Bool.false_eq_true, if_false, Bool.and_eq_true, decide_eq_true_eq,
        true_imp_iff]
      refine ⟨?_, ?_⟩
      · intro h
        have hlow : (i.low : ℚ) * l < k := by exact_mod_cast h.1
        have hhigh : (k : ℚ) < i.high * l := by exact_mod_cast h.2
        exact ⟨hlow.le, hhigh.le, hlow, hhigh⟩
      · intro h
        exact ⟨by exact_mod_cast h.2.2.1, by exact_mod_cast h.2.2.2⟩

/-- How many points of a grid stand below a value, the last of which is next to it. -/
def pointsBelow (i : Interval) (n d : Nat) (e : ℤ) : Nat :=
  i.value * (scale n d (-e)).1 / (scale n d (-e)).2

/-- A point of a grid, in quarters. -/
theorem point_eq (k : Nat) (hn : 0 < n) (hd : 0 < d) :
    ((k * (scale n d (-e)).2 : Nat) : ℚ) / (scale n d (-e)).1 = k * 10 ^ e / (n / d) := by
  obtain ⟨hn', hd'⟩ := scale_pos hn hd (-e)
  have hratio := scale_ratio n d (-e)
  have hinv : ((scale n d (-e)).2 : ℚ) / (scale n d (-e)).1 = 10 ^ e / (n / d) := by
    rw [← inv_div, hratio, zpow_neg, mul_inv, inv_inv, mul_comm, div_eq_mul_inv (10 ^ e)]
  push_cast
  rw [mul_div_assoc, hinv, mul_div_assoc]

/-- The value stands between the point below it and the next one. -/
theorem pointsBelow_bounds (hn : 0 < n) (hd : 0 < d) :
    pointsBelow i n d e * 10 ^ e / (n / d) ≤ (i.value : ℚ) ∧
      (i.value : ℚ) < ((pointsBelow i n d e + 1 : Nat) : ℚ) * 10 ^ e / (n / d) := by
  obtain ⟨hn', hd'⟩ := scale_pos hn hd (-e)
  have hpos : (0 : ℚ) < (scale n d (-e)).1 := by exact_mod_cast hn'
  rw [← point_eq _ hn hd, ← point_eq _ hn hd, div_le_iff₀ hpos, lt_div_iff₀ hpos]
  have hlow := Nat.div_mul_le_self (i.value * (scale n d (-e)).1) (scale n d (-e)).2
  have hhigh := Nat.lt_mul_div_succ (i.value * (scale n d (-e)).1) hd'
  rw [Nat.mul_comm (scale n d (-e)).2] at hhigh
  exact ⟨by exact_mod_cast hlow, by exact_mod_cast hhigh⟩

/-- Whether a point lies in the interval is what the grid asks. -/
theorem holds_point_iff (k : Nat) (hn : 0 < n) (hd : 0 < d) :
    i.holds (k * (scale n d (-e)).2) (scale n d (-e)).1 = true ↔
      i.Mem ((⟨k, e⟩ : Decimal).value / (n / d)) := by
  rw [holds_iff (scale_pos hn hd (-e)).1, point_eq k hn hd]
  rfl

/-- What a grid gives is one of the two points next to the value, and it lies in the interval. -/
theorem onGrid?_eq_some {x : Decimal} (hn : 0 < n) (hd : 0 < d)
    (h : onGrid? i n d e = some x) :
    (x = ⟨pointsBelow i n d e, e⟩ ∨ x = ⟨pointsBelow i n d e + 1, e⟩) ∧
      i.Mem (x.value / (n / d)) := by
  have hbelow := holds_point_iff (i := i) (e := e) (pointsBelow i n d e) hn hd
  have habove := holds_point_iff (i := i) (e := e) (pointsBelow i n d e + 1) hn hd
  unfold onGrid? at h
  dsimp only at h
  split at h
  · cases h
  · rename_i hin _
    cases h
    exact ⟨.inl rfl, hbelow.mp hin⟩
  · rename_i hin
    cases h
    exact ⟨.inr rfl, habove.mp hin⟩
  · rename_i hin hin'
    split at h
    · cases h
      exact ⟨.inl rfl, hbelow.mp hin⟩
    · cases h
      exact ⟨.inr rfl, habove.mp hin'⟩

/-- **A grid that is finer than the interval is wide has a point in it.** If the point below the value
is not in the interval, it is below the lower end, and the next one is not yet above the upper end. -/
theorem onGrid?_isSome (hn : 0 < n) (hd : 0 < d) (hlow : i.low < i.value) (hhigh : i.value < i.high)
    (hstep : (10 : ℚ) ^ e / (n / d) < i.high - i.low) : ∃ x, onGrid? i n d e = some x := by
  have hnpos : (0 : ℚ) < n := by exact_mod_cast hn
  have hdpos : (0 : ℚ) < d := by exact_mod_cast hd
  have hlow' : (i.low : ℚ) < i.value := by exact_mod_cast hlow
  have hhigh' : (i.value : ℚ) < i.high := by exact_mod_cast hhigh
  have hbelow := holds_point_iff (i := i) (e := e) (pointsBelow i n d e) hn hd
  have habove := holds_point_iff (i := i) (e := e) (pointsBelow i n d e + 1) hn hd
  obtain ⟨hunder, hover⟩ := pointsBelow_bounds (i := i) (e := e) hn hd
  have hnext : ((pointsBelow i n d e + 1 : Nat) : ℚ) * 10 ^ e / (n / d) =
      pointsBelow i n d e * 10 ^ e / (n / d) + 10 ^ e / (n / d) := by
    push_cast
    rw [add_mul, one_mul, add_div]
  have hone : i.Mem ((⟨pointsBelow i n d e, e⟩ : Decimal).value / (n / d)) ∨
      i.Mem ((⟨pointsBelow i n d e + 1, e⟩ : Decimal).value / (n / d)) := by
    unfold Interval.Mem value
    rw [hnext] at hover ⊢
    by_cases hin : (i.low : ℚ) < pointsBelow i n d e * 10 ^ e / (n / d)
    · exact .inl ⟨hin.le, by linarith, fun _ => ⟨hin, by linarith⟩⟩
    · rw [not_lt] at hin
      exact .inr ⟨by linarith, by linarith, fun _ => ⟨by linarith, by linarith⟩⟩
  unfold onGrid?
  dsimp only
  split
  · rename_i hout hout'
    rcases hone with hin | hin
    · exact absurd (hbelow.mpr hin) (Bool.eq_false_iff.mp hout)
    · exact absurd (habove.mpr hin) (Bool.eq_false_iff.mp hout')
  · exact ⟨_, rfl⟩
  · exact ⟨_, rfl⟩
  · split
    · exact ⟨_, rfl⟩
    · exact ⟨_, rfl⟩

/-- A point that a grid of so many digits gives has no more digits, and at least one. -/
theorem digits_of_onGrid? {x : Decimal} {k : Nat} (hn : 0 < n) (hd : 0 < d) (hv : 0 < i.value)
    (hk : 0 < k) (h : onGrid? i n d (leadingExponent (i.value * n) d - k + 1) = some x) :
    0 < x.digits ∧ x.digits ≤ 10 ^ k := by
  obtain ⟨hfirst, hlast⟩ := leadingExponent_bounds (Nat.mul_pos hv hn) hd
  generalize leadingExponent (i.value * n) d = l at h hfirst hlast
  have hnpos : (0 : ℚ) < n := by exact_mod_cast hn
  have hdpos : (0 : ℚ) < d := by exact_mod_cast hd
  have hworth : (0 : ℚ) < n / d := div_pos hnpos hdpos
  have hstep := ten_zpow_pos (l - k + 1)
  obtain ⟨hunder, hover⟩ := pointsBelow_bounds (i := i) (e := l - k + 1) hn hd
  rw [div_le_iff₀ hworth] at hunder
  rw [lt_div_iff₀ hworth] at hover
  push_cast at hfirst hlast
  rw [mul_div_assoc] at hfirst hlast
  have hpoints : 0 < pointsBelow i n d (l - k + 1) := by
    have hmono : (10 : ℚ) ^ (l - k + 1) ≤ 10 ^ l := zpow_le_zpow_right₀ (by norm_num) (by omega)
    have hlt : (1 : ℚ) * 10 ^ (l - k + 1) <
        ((pointsBelow i n d (l - k + 1) + 1 : Nat) : ℚ) * 10 ^ (l - k + 1) := by
      linarith
    have hone := lt_of_mul_lt_mul_right hlt hstep.le
    have hone' : 1 < pointsBelow i n d (l - k + 1) + 1 := by exact_mod_cast hone
    omega
  have hpoints' : pointsBelow i n d (l - k + 1) < 10 ^ k := by
    have hsplit : (10 : ℚ) ^ (l + 1) = 10 ^ k * 10 ^ (l - k + 1) := by
      rw [← zpow_natCast, ← zpow_add₀ (by norm_num)]
      congr 1
      ring
    have hlt : (pointsBelow i n d (l - k + 1) : ℚ) * 10 ^ (l - k + 1) <
        10 ^ k * 10 ^ (l - k + 1) := by
      rw [← hsplit]
      linarith
    have hlt' := lt_of_mul_lt_mul_right hlt hstep.le
    exact_mod_cast hlt'
  rcases (onGrid?_eq_some hn hd h).1 with rfl | rfl
  · exact ⟨hpoints, hpoints'.le⟩
  · exact ⟨Nat.succ_pos _, hpoints'⟩

end Grid

/-! ## The search -/

section Search

variable {i : Interval} {n d : Nat} {leading : ℤ} {x : Decimal}

theorem search_eq_some {tries count : Nat} (h : search i n d leading tries count = some x) :
    ∃ k, count ≤ k ∧ k < count + tries ∧ onGrid? i n d (leading - k + 1) = some x := by
  induction tries generalizing count with
  | zero => cases h
  | succ tries ih =>
      unfold search at h
      cases hgrid : onGrid? i n d (leading - count + 1) with
      | some y =>
          rw [hgrid] at h
          exact ⟨count, Nat.le_refl _, by omega, hgrid.trans h⟩
      | none =>
          rw [hgrid] at h
          obtain ⟨k, hge, hlt, hk⟩ := ih h
          exact ⟨k, by omega, by omega, hk⟩

theorem exists_search {tries count k : Nat} (hge : count ≤ k) (hlt : k < count + tries)
    (h : onGrid? i n d (leading - k + 1) = some x) :
    ∃ y, search i n d leading tries count = some y := by
  induction tries generalizing count with
  | zero => omega
  | succ tries ih =>
      unfold search
      cases hgrid : onGrid? i n d (leading - count + 1) with
      | some y => exact ⟨y, rfl⟩
      | none =>
          have hne : count ≠ k := by
            intro hsame
            rw [hsame, h] at hgrid
            cases hgrid
          exact ih (by omega) (by omega)

/-- Without the zeros at its end it is the same decimal. -/
theorem stripZeros_spec (fuel : Nat) (x : Decimal) :
    (stripZeros fuel x).value = x.value ∧ (stripZeros fuel x).digits ≤ x.digits ∧
      (0 < x.digits → 0 < (stripZeros fuel x).digits) := by
  induction fuel generalizing x with
  | zero => exact ⟨rfl, Nat.le_refl _, id⟩
  | succ fuel ih =>
      unfold stripZeros
      split
      · rename_i hzero
        obtain ⟨hvalue, hle, hpos⟩ := ih ⟨x.digits / 10, x.exponent + 1⟩
        refine ⟨?_, hle.trans (Nat.div_le_self _ _), fun h => hpos (by dsimp only; omega)⟩
        rw [hvalue]
        have hdigits : x.digits = x.digits / 10 * 10 := by omega
        have hdigits' : (x.digits : ℚ) = (x.digits / 10 : Nat) * 10 := by exact_mod_cast hdigits
        unfold value
        rw [hdigits', ten_zpow_add_one]
        ring
      · exact ⟨rfl, Nat.le_refl _, id⟩

end Search

/-! ## The shortest decimal -/

section Binary64

open Binary64 hiding zero

variable {x : Binary64}

/-- What a quarter of the unit of a number is worth. -/
theorem quarter_ratio (x : Binary64) :
    ((shift 1 4 x.exponent).1 : ℚ) / (shift 1 4 x.exponent).2 = 2 ^ x.exponent / 4 := by
  rw [shift_ratio]
  push_cast
  ring

theorem quarter_pos (x : Binary64) :
    0 < (shift 1 4 x.exponent).1 ∧ 0 < (shift 1 4 x.exponent).2 :=
  ⟨powered_fst_pos (by decide) Nat.one_pos 4 _, shift_pos (by decide) _⟩

/-- The interval is wider than the grid of 17 digits, also below the least significand. -/
theorem width_of (hx : 0 < x.significand) :
    (Interval.of x).low < (Interval.of x).value ∧ (Interval.of x).value < (Interval.of x).high ∧
      ((Interval.of x).value : ℚ) / 10 ^ 16 < (Interval.of x).high - (Interval.of x).low := by
  have hlt := x.significand_lt
  rw [band] at hlt
  have hvalue : (Interval.of x).value = 4 * x.significand := rfl
  have hhigh := high_of x
  by_cases hleast : x.significand = band ∧ -1074 < x.exponent
  · have hlow := low_of_least hleast
    rw [hvalue, hhigh, hlow, hleast.1, band]
    norm_num
  · have hlow := low_of_not_least hleast
    rw [hvalue, hhigh, hlow]
    refine ⟨by omega, by omega, ?_⟩
    have hcast : ((4 * x.significand - 2 : Nat) : ℚ) = 4 * x.significand - 2 := by
      have h : (4 * x.significand - 2) + 2 = 4 * x.significand := by omega
      have h' : ((4 * x.significand - 2 : Nat) : ℚ) + 2 = 4 * x.significand := by exact_mod_cast h
      linarith
    have hsmall : (x.significand : ℚ) < 10 ^ 16 := by
      have h : x.significand < 10 ^ 16 := by omega
      exact_mod_cast h
    rw [hcast, div_lt_iff₀ (by norm_num)]
    push_cast
    linarith

/-- The search finds a point of a grid of at most 17 digits. -/
theorem exists_shortest (hx : 0 < x.significand) :
    ∃ (y : Decimal) (k : Nat), 1 ≤ k ∧ k ≤ 17 ∧ shortest x = stripZeros 20 y ∧
      onGrid? (Interval.of x) (shift 1 4 x.exponent).1 (shift 1 4 x.exponent).2
        (leadingExponent ((Interval.of x).value * (shift 1 4 x.exponent).1)
          (shift 1 4 x.exponent).2 - k + 1) = some y := by
  obtain ⟨hn, hd⟩ := quarter_pos x
  obtain ⟨hlow, hhigh, hwidth⟩ := width_of hx
  have hvalue : 0 < (Interval.of x).value := Nat.zero_lt_of_lt hlow
  have hfirst := (leadingExponent_bounds (Nat.mul_pos hvalue hn) hd).1
  have hshortest : shortest x = ((search (Interval.of x) (shift 1 4 x.exponent).1
      (shift 1 4 x.exponent).2 (leadingExponent ((Interval.of x).value * (shift 1 4 x.exponent).1)
        (shift 1 4 x.exponent).2) 17 1).map (stripZeros 20)).getD ⟨x.significand, 0⟩ :=
    if_neg (by omega)
  generalize leadingExponent ((Interval.of x).value * (shift 1 4 x.exponent).1)
    (shift 1 4 x.exponent).2 = l at hfirst hshortest ⊢
  have hworth : (0 : ℚ) < (shift 1 4 x.exponent).1 / (shift 1 4 x.exponent).2 :=
    div_pos (by exact_mod_cast hn) (by exact_mod_cast hd)
  have hstep : (10 : ℚ) ^ (l - (17 : Nat) + 1) /
      ((shift 1 4 x.exponent).1 / (shift 1 4 x.exponent).2) <
        (Interval.of x).high - (Interval.of x).low := by
    have hsplit : (10 : ℚ) ^ (l - (17 : Nat) + 1) * 10 ^ 16 = 10 ^ l := by
      rw [← zpow_natCast, ← zpow_add₀ (by norm_num)]
      congr 1
      push_cast
      ring
    refine lt_of_le_of_lt ?_ hwidth
    push_cast at hfirst
    rw [mul_div_assoc] at hfirst
    rw [div_le_iff₀ hworth, div_mul_eq_mul_div, le_div_iff₀ (by norm_num), hsplit]
    exact hfirst
  obtain ⟨z, hz⟩ := onGrid?_isSome hn hd hlow hhigh hstep
  obtain ⟨y, hy⟩ : ∃ y, search (Interval.of x) (shift 1 4 x.exponent).1 (shift 1 4 x.exponent).2
      l 17 1 = some y := exists_search (by decide) (by decide) hz
  obtain ⟨k, hge, hlt, hgrid⟩ := search_eq_some hy
  rw [hy] at hshortest
  exact ⟨y, k, hge, by omega, hshortest, hgrid⟩

/-- **The shortest decimal of a number lies in its interval**, and it has 17 digits at most. -/
theorem shortest_spec (hx : 0 < x.significand) :
    Between x (shortest x).value ∧ 0 < (shortest x).digits ∧ (shortest x).digits ≤ 10 ^ 17 := by
  obtain ⟨hn, hd⟩ := quarter_pos x
  have hvalue : 0 < (Interval.of x).value := Nat.zero_lt_of_lt (width_of hx).1
  obtain ⟨y, k, hk, hk', hshortest, hgrid⟩ := exists_shortest hx
  obtain ⟨hsame, hle, hpos⟩ := stripZeros_spec 20 y
  obtain ⟨hdigits, hdigits'⟩ := digits_of_onGrid? hn hd hvalue hk hgrid
  have hmem := (onGrid?_eq_some hn hd hgrid).2
  rw [quarter_ratio, div_div_eq_mul_div, mul_comm y.value] at hmem
  rw [hshortest]
  refine ⟨?_, hpos hdigits, (hle.trans hdigits').trans (Nat.pow_le_pow_right (by decide) hk')⟩
  unfold Between
  rw [hsame]
  exact hmem

theorem shortest_of_zero (hx : x.significand = 0) : shortest x = ⟨0, 0⟩ :=
  if_pos hx

theorem exponent_le (x : Binary64) : x.exponent ≤ 971 := by
  have hlt := x.rank_lt
  have hdiv : x.rank / band < 2047 := Nat.div_lt_of_lt_mul (by rw [Nat.mul_comm]; exact hlt)
  unfold Binary64.exponent
  split
  · omega
  · omega

/-- The first digit of a number stands no further off than the exponents of a numeral reach. -/
theorem leading_bounds (hx : 0 < x.significand) :
    -1100 < (shortest x).exponent + digitCount (shortest x).digits ∧
      (shortest x).exponent + digitCount (shortest x).digits < 1100 := by
  obtain ⟨hbetween, hdigits, _⟩ := shortest_spec hx
  obtain ⟨hfirst, hlast⟩ := value_bounds hdigits
  obtain ⟨hlow, hhigh, _⟩ := between_bounds hbetween
  have hpos := two_zpow_pos x.exponent
  have hone : (1 : ℚ) ≤ x.significand := by exact_mod_cast hx
  generalize (shortest x).exponent + digitCount (shortest x).digits = l at hfirst hlast ⊢
  refine ⟨?_, ?_⟩
  · have hunit : (10 : ℚ) ^ (-1074 : ℤ) ≤ 2 ^ x.exponent :=
      (ten_zpow_le_two_zpow (by decide)).trans (zpow_le_zpow_right₀ (by norm_num) x.exponent_ge)
    have hmul := mul_le_mul_of_nonneg_right ((low_cast hx).1) hpos.le
    have htwo : (2 : ℚ) * 2 ^ x.exponent ≤ (4 * x.significand - 2) * 2 ^ x.exponent :=
      mul_le_mul_of_nonneg_right (by linarith) hpos.le
    have hsplit := ten_zpow_add_one (-1075)
    have hpos' := ten_zpow_pos (-1075)
    rw [show (-1075 : ℤ) + 1 = -1074 from rfl] at hsplit
    have hlt : (10 : ℚ) ^ (-1075 : ℤ) < 10 ^ l := by linarith
    have hexp := (zpow_lt_zpow_iff_right₀ (by norm_num)).mp hlt
    omega
  · have hunit : (2 : ℚ) ^ x.exponent ≤ 2 ^ (971 : ℤ) :=
      zpow_le_zpow_right₀ (by norm_num) (exponent_le x)
    have hsig : (4 * x.significand + 2 : ℚ) ≤ 2 ^ (56 : ℤ) := by
      have h := x.significand_lt
      rw [band] at h
      have h' : 4 * x.significand + 2 ≤ 2 ^ 56 := by omega
      exact_mod_cast h'
    have hmul := mul_le_mul hsig hunit hpos.le (two_zpow_pos 56).le
    rw [← zpow_add₀ (by norm_num)] at hmul
    have hten := two_zpow_le_ten_zpow (e := 56 + 971) (by decide)
    have hpos' := ten_zpow_pos (l - 1)
    have hbig : (10 : ℚ) ^ (l - 1) ≤ 10 ^ (56 + 971 : ℤ) := by linarith
    have hexp := (zpow_le_zpow_iff_right₀ (by norm_num)).mp hbig
    omega

end Binary64

end CrashCourier.Decimal
