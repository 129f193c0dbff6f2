import CrashCourier.Text.Hex
import Mathlib.Data.List.Induction
import Mathlib.Tactic.IntervalCases

/-!
# Hexadecimal digits read back

A written number is read back from its digits, and leading zeros change nothing. Conversely, any digits
are read as a number, those of either case, and digits that are read as one number and are equally many
are the same but for their case.
-/

namespace CrashCourier.Text

/-! ## Digits that are written -/

theorem hexValue_digitChar {d : Nat} (h : d < 16) : hexValue? (Nat.digitChar d) = some d := by
  interval_cases d <;> decide

theorem ofHex_append_digit {cs : List Char} {n d : Nat} (h : ofHex? cs = some n) (hd : d < 16) :
    ofHex? (cs ++ [Nat.digitChar d]) = some (n * 16 + d) := by
  unfold ofHex? at h ⊢
  rw [List.foldl_append, h, List.foldl_cons, hexValue_digitChar hd]
  rfl

theorem ofHex_toDigits (n : Nat) : ofHex? (Nat.toDigits 16 n) = some n := by
  induction n using Nat.strongRecOn with
  | ind n ih =>
      rw [Nat.toDigits_eq_if (by decide)]
      by_cases hn : n < 16
      · have hzero : ofHex? [] = some 0 := rfl
        have hdigit := ofHex_append_digit hzero hn
        rw [if_pos hn]
        simpa using hdigit
      · have hdigit := ofHex_append_digit (ih (n / 16) (by omega)) (d := n % 16) (by omega)
        rw [if_neg hn, hdigit]
        congr 1
        omega

theorem ofHex_replicate_zero (k : Nat) (cs : List Char) :
    ofHex? (List.replicate k '0' ++ cs) = ofHex? cs := by
  induction k with
  | zero => rfl
  | succ k ih => exact ih

/-- Digits that were written are read back. -/
theorem ofHex_hex (width n : Nat) : ofHex? (hex width n) = some n := by
  unfold hex
  rw [ofHex_replicate_zero, ofHex_toDigits]

theorem exists_of_mem_toDigits {n : Nat} {c : Char} (h : c ∈ Nat.toDigits 16 n) :
    ∃ d < 16, c = Nat.digitChar d := by
  induction n using Nat.strongRecOn with
  | ind n ih =>
      rw [Nat.toDigits_eq_if (by decide)] at h
      by_cases hn : n < 16
      · rw [if_pos hn, List.mem_singleton] at h
        exact ⟨n, hn, h⟩
      · rw [if_neg hn, List.mem_append, List.mem_singleton] at h
        rcases h with h | h
        · exact ih (n / 16) (by omega) h
        · exact ⟨n % 16, Nat.mod_lt n (by decide), h⟩

/-- What is written is digits. -/
theorem exists_of_mem_hex {width n : Nat} {c : Char} (h : c ∈ hex width n) :
    ∃ d < 16, c = Nat.digitChar d := by
  unfold hex at h
  rcases List.mem_append.mp h with h | h
  · exact ⟨0, by decide, List.eq_of_mem_replicate h⟩
  · exact exists_of_mem_toDigits h

/-- A character that is no digit is not among them. -/
theorem not_mem_hex {width n : Nat} {c : Char} (h : ∀ d < 16, c ≠ Nat.digitChar d) :
    c ∉ hex width n := by
  intro hmem
  obtain ⟨d, hd, hc⟩ := exists_of_mem_hex hmem
  exact h d hd hc

theorem length_hex {width n : Nat} (hwidth : 0 < width) (h : n < 16 ^ width) :
    (hex width n).length = width := by
  have hlength := (Nat.length_toDigits_le_iff (by decide) hwidth).mpr h
  unfold hex
  rw [List.length_append, List.length_replicate]
  omega

/-! ## Which characters are digits -/

/-- A digit of base 16, of either case. -/
def IsHexDigit (c : Char) : Prop :=
  ('0' ≤ c ∧ c ≤ '9') ∨ ('a' ≤ c ∧ c ≤ 'f') ∨ ('A' ≤ c ∧ c ≤ 'F')

theorem hexValue_isSome {c : Char} : (hexValue? c).isSome ↔ IsHexDigit c := by
  unfold hexValue? IsHexDigit
  split_ifs with hdigit hlower hupper
  · exact ⟨fun _ => .inl hdigit, fun _ => rfl⟩
  · exact ⟨fun _ => .inr (.inl hlower), fun _ => rfl⟩
  · exact ⟨fun _ => .inr (.inr hupper), fun _ => rfl⟩
  · refine ⟨fun h => (nomatch h), ?_⟩
    rintro (h | h | h)
    · exact absurd h hdigit
    · exact absurd h hlower
    · exact absurd h hupper

theorem IsHexDigit.toNat_lt {c : Char} (h : IsHexDigit c) : c.toNat < 0x80 := by
  have hle : ∀ {high : Char}, high.toNat < 0x80 → c ≤ high → c.toNat < 0x80 :=
    fun hhigh hc => Nat.lt_of_le_of_lt hc hhigh
  rcases h with h | h | h
  · exact hle (by decide) h.2
  · exact hle (by decide) h.2
  · exact hle (by decide) h.2

/-- The value of a digit is below 16 and is written with the digit, unless that is in upper case. -/
theorem digitChar_of_hexValue {c : Char} {d : Nat} (h : hexValue? c = some d) :
    d < 16 ∧ (c.isUpper = false → Nat.digitChar d = c) := by
  have hascii : ∀ n < 0x80, ∀ d ∈ hexValue? (Char.ofNat n),
      d < 16 ∧ ((Char.ofNat n).isUpper = false → Nat.digitChar d = Char.ofNat n) := by
    decide
  have hc : IsHexDigit c := hexValue_isSome.mp (h ▸ rfl)
  have hvalue := hascii c.toNat hc.toNat_lt d
  rw [Char.ofNat_toNat] at hvalue
  exact hvalue h

theorem ofHex_append {cs : List Char} {c : Char} :
    ofHex? (cs ++ [c]) = (ofHex? cs).bind fun n => (hexValue? c).map fun d => n * 16 + d := by
  unfold ofHex?
  rw [List.foldl_append, List.foldl_cons, List.foldl_nil]
  generalize cs.foldl _ _ = n?
  cases n? with
  | none => rfl
  | some n => cases hexValue? c <;> rfl

/-- What can be read are digits. -/
theorem ofHex_isSome {cs : List Char} : (ofHex? cs).isSome ↔ ∀ c ∈ cs, IsHexDigit c := by
  induction cs using List.reverseRecOn with
  | nil => exact ⟨fun _ c hc => absurd hc List.not_mem_nil, fun _ => rfl⟩
  | append_singleton cs c ih =>
      rw [ofHex_append, List.forall_mem_append, List.forall_mem_singleton, ← ih, ← hexValue_isSome]
      cases ofHex? cs with
      | none => exact ⟨fun h => (nomatch h), fun h => (nomatch h.1)⟩
      | some n => cases hexValue? c with
        | none => exact ⟨fun h => (nomatch h), fun h => (nomatch h.2)⟩
        | some d => exact ⟨fun _ => ⟨rfl, rfl⟩, fun _ => rfl⟩

theorem exists_of_ofHex_append {cs : List Char} {c : Char} {n : Nat}
    (h : ofHex? (cs ++ [c]) = some n) :
    ∃ m d, ofHex? cs = some m ∧ hexValue? c = some d ∧ n = m * 16 + d := by
  rw [ofHex_append] at h
  obtain ⟨m, hm, h⟩ := Option.bind_eq_some_iff.mp h
  obtain ⟨d, hd, rfl⟩ := Option.map_eq_some_iff.mp h
  exact ⟨m, d, hm, hd, rfl⟩

theorem ofHex_lt {cs : List Char} {n : Nat} (h : ofHex? cs = some n) : n < 16 ^ cs.length := by
  induction cs using List.reverseRecOn generalizing n with
  | nil =>
      obtain rfl : 0 = n := Option.some.inj h
      exact Nat.one_pos
  | append_singleton cs c ih =>
      obtain ⟨m, d, hm, hd, rfl⟩ := exists_of_ofHex_append h
      have hlt := ih hm
      have hd := (digitChar_of_hexValue hd).1
      rw [List.length_append, List.length_singleton, Nat.pow_succ]
      omega

/-- As many digits, none of them in upper case, are read as one number only. -/
theorem eq_of_ofHex {cs ds : List Char} {n : Nat} (hlength : cs.length = ds.length)
    (hcs : ofHex? cs = some n) (hds : ofHex? ds = some n) (hlower : ∀ c ∈ cs, c.isUpper = false)
    (hlower' : ∀ d ∈ ds, d.isUpper = false) : cs = ds := by
  induction cs using List.reverseRecOn generalizing ds n with
  | nil => exact (List.eq_nil_of_length_eq_zero hlength.symm).symm
  | append_singleton cs c ih =>
      cases ds using List.reverseRecOn with
      | nil => simp at hlength
      | append_singleton ds d =>
          obtain ⟨m, v, hm, hv, rfl⟩ := exists_of_ofHex_append hcs
          obtain ⟨m', v', hm', hv', heq⟩ := exists_of_ofHex_append hds
          rw [List.forall_mem_append, List.forall_mem_singleton] at hlower hlower'
          obtain ⟨hvlt, hc⟩ := digitChar_of_hexValue hv
          obtain ⟨hvlt', hd⟩ := digitChar_of_hexValue hv'
          obtain rfl : m' = m := by omega
          obtain rfl : v' = v := by omega
          have hinit : cs = ds := by
            refine ih ?_ hm hm' hlower.1 hlower'.1
            simpa using hlength
          rw [hinit, ← hc hlower.2, hd hlower'.2]

/-- **Digits that were read are written again**, if none of them is in upper case. -/
theorem hex_of_ofHex {cs : List Char} {n : Nat} (h : ofHex? cs = some n) (hne : cs ≠ []) :
    hex cs.length n = cs ↔ ∀ c ∈ cs, c.isUpper = false := by
  have hwritten : ∀ {width : Nat}, ∀ c ∈ hex width n, c.isUpper = false := by
    intro width c hc
    obtain ⟨d, hd, rfl⟩ := exists_of_mem_hex hc
    exact (by decide : ∀ d < 16, (Nat.digitChar d).isUpper = false) d hd
  refine ⟨fun heq => heq ▸ hwritten, fun hlower => ?_⟩
  exact eq_of_ofHex (length_hex (List.length_pos_iff.mpr hne) (ofHex_lt h)) (ofHex_hex _ n) h
    hwritten hlower

end CrashCourier.Text
