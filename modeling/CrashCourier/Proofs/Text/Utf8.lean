import CrashCourier.Text.Utf8

/-!
# Reading UTF-8 back

The machine that reads octets is followed through the one to four octets of a character. Its first
octet settles how many are owed, every further one adds six bits, and in the end the bits make up the
code point. Then `decode?` undoes `encode` character by character.

The restrictions on the second octet are what is left to check. They exclude overlong forms,
surrogates and numbers beyond the last character, and no character is written so.
-/

namespace CrashCourier.Text.Utf8

/-- Below 128 a character is its own octet. -/
theorem encodeChar_of_lt {c : Char} (h : c.toNat < 0x80) : encodeChar c = [UInt8.ofNat c.toNat] := by
  have hv : c.val.toNat ≤ 0x7F := by
    change c.toNat ≤ 0x7F
    omega
  rw [encodeChar, String.utf8EncodeChar, if_pos hv]
  rfl

/-- Octets below 128 stand for themselves and for nothing else. -/
theorem mem_encodeChar {b : UInt8} {c : Char} (h : b ∈ encodeChar c) :
    c.toNat < 0x80 ∧ b = UInt8.ofNat c.toNat ∨ 0x80 ≤ b.toNat := by
  by_cases hc : c.toNat < 0x80
  · rw [encodeChar_of_lt hc] at h
    exact .inl ⟨hc, List.mem_singleton.mp h⟩
  · have hv : ¬ c.val.toNat ≤ 0x7F := by
      change ¬ c.toNat ≤ 0x7F
      omega
    rw [encodeChar, String.utf8EncodeChar, if_neg hv] at h
    refine .inr ?_
    split at h
    · simp only [List.mem_cons, List.not_mem_nil, or_false] at h
      rcases h with rfl | rfl <;> rw [UInt8.toNat_ofNat'] <;> omega
    · split at h
      · simp only [List.mem_cons, List.not_mem_nil, or_false] at h
        rcases h with rfl | rfl | rfl <;> rw [UInt8.toNat_ofNat'] <;> omega
      · simp only [List.mem_cons, List.not_mem_nil, or_false] at h
        rcases h with rfl | rfl | rfl | rfl <;> rw [UInt8.toNat_ofNat'] <;> omega

/-! ## One octet -/

theorem decodeFrom?_first_more {b : UInt8} {p : Pending} {rest : Bytes} (h : first b = .more p) :
    decodeFrom? none (b :: rest) = decodeFrom? (some p) rest := by
  simp only [decodeFrom?, Option.elim_none, h]

theorem decodeFrom?_first_done {b : UInt8} {c : Char} {rest : Bytes} (h : first b = .done c) :
    decodeFrom? none (b :: rest) = (decodeFrom? none rest).map (c :: ·) := by
  simp only [decodeFrom?, Option.elim_none, h]

section Tail

variable (p : Pending) {d : Nat} (rest : Bytes)

/-- An octet in range adds six bits. -/
theorem Pending.next_eq (hd : d < 64) (hlow : p.low.toNat ≤ d + 0x80)
    (hhigh : d + 0x80 ≤ p.high.toNat) :
    p.next (UInt8.ofNat (d + 0x80)) = match p.owed with
      | 0 => .done (Char.ofNat (p.bits * 64 + d))
      | n + 1 => .more ⟨n, 0x80, 0xBF, p.bits * 64 + d⟩ := by
  have hb : (UInt8.ofNat (d + 0x80)).toNat = d + 0x80 := by
    rw [UInt8.toNat_ofNat']
    omega
  have hin : p.low ≤ UInt8.ofNat (d + 0x80) ∧ UInt8.ofNat (d + 0x80) ≤ p.high := by
    rw [UInt8.le_iff_toNat_le, UInt8.le_iff_toNat_le, hb]
    exact ⟨hlow, hhigh⟩
  have hbits : (UInt8.ofNat (d + 0x80)).toNat % 64 = d := by
    rw [hb]
    omega
  unfold next
  cases howed : p.owed with
  | zero => simp only [if_pos hin, hbits]
  | succ n => simp only [if_pos hin, hbits]

theorem decodeFrom?_next_more {n : Nat} (howed : p.owed = n + 1) (hd : d < 64)
    (hlow : p.low.toNat ≤ d + 0x80) (hhigh : d + 0x80 ≤ p.high.toNat) :
    decodeFrom? (some p) (UInt8.ofNat (d + 0x80) :: rest) =
      decodeFrom? (some ⟨n, 0x80, 0xBF, p.bits * 64 + d⟩) rest := by
  have hnext := p.next_eq hd hlow hhigh
  rw [howed] at hnext
  simp only [decodeFrom?, Option.elim_some, hnext]

theorem decodeFrom?_next_done (howed : p.owed = 0) (hd : d < 64)
    (hlow : p.low.toNat ≤ d + 0x80) (hhigh : d + 0x80 ≤ p.high.toNat) :
    decodeFrom? (some p) (UInt8.ofNat (d + 0x80) :: rest) =
      (decodeFrom? none rest).map (Char.ofNat (p.bits * 64 + d) :: ·) := by
  have hnext := p.next_eq hd hlow hhigh
  rw [howed] at hnext
  simp only [decodeFrom?, Option.elim_some, hnext]

end Tail

/-! ## One character -/

section Lengths

variable {v : Nat} {rest : Bytes}

theorem decodeFrom?_one (h : v < 0x80) :
    decodeFrom? none (UInt8.ofNat v :: rest) = (decodeFrom? none rest).map (Char.ofNat v :: ·) := by
  have hb : (UInt8.ofNat v).toNat = v := by
    rw [UInt8.toNat_ofNat']
    omega
  refine decodeFrom?_first_done ?_
  rw [first, hb, if_pos h]

theorem decodeFrom?_two (hlow : 0x80 ≤ v) (hhigh : v < 0x800) :
    decodeFrom? none (UInt8.ofNat (v / 64 % 32 + 0xC0) :: UInt8.ofNat (v % 64 + 0x80) :: rest) =
      (decodeFrom? none rest).map (Char.ofNat v :: ·) := by
  have hb : (UInt8.ofNat (v / 64 % 32 + 0xC0)).toNat = v / 64 + 0xC0 := by
    rw [UInt8.toNat_ofNat']
    omega
  have hfirst : first (UInt8.ofNat (v / 64 % 32 + 0xC0)) = .more ⟨0, 0x80, 0xBF, v / 64⟩ := by
    rw [first, hb, if_neg (by omega), if_neg (by omega), if_pos (by omega), Nat.add_sub_cancel]
  have hlast := decodeFrom?_next_done ⟨0, 0x80, 0xBF, v / 64⟩ rest (d := v % 64) rfl (by omega)
    (Nat.le_add_left _ _) (by show _ ≤ 0xBF; omega)
  have hbits : v / 64 * 64 + v % 64 = v := by omega
  rw [decodeFrom?_first_more hfirst, hlast, hbits]

theorem decodeFrom?_three (hlow : 0x800 ≤ v) (hhigh : v < 0x10000)
    (hvalid : v < 0xD800 ∨ 0xDFFF < v) :
    decodeFrom? none (UInt8.ofNat (v / 4096 % 16 + 0xE0) :: UInt8.ofNat (v / 64 % 64 + 0x80) ::
        UInt8.ofNat (v % 64 + 0x80) :: rest) =
      (decodeFrom? none rest).map (Char.ofNat v :: ·) := by
  have hb : (UInt8.ofNat (v / 4096 % 16 + 0xE0)).toNat = v / 4096 + 0xE0 := by
    rw [UInt8.toNat_ofNat']
    omega
  have hfirst : first (UInt8.ofNat (v / 4096 % 16 + 0xE0)) =
      .more ⟨1, if v / 4096 + 0xE0 = 0xE0 then 0xA0 else 0x80,
        if v / 4096 + 0xE0 = 0xED then 0x9F else 0xBF, v / 4096⟩ := by
    rw [first, hb, if_neg (by omega), if_neg (by omega), if_neg (by omega), if_pos (by omega),
      Nat.add_sub_cancel]
  -- no overlong form
  have hleast : (if v / 4096 + 0xE0 = 0xE0 then (0xA0 : UInt8) else 0x80).toNat ≤
      v / 64 % 64 + 0x80 := by
    split
    · show 0xA0 ≤ _
      omega
    · show 0x80 ≤ _
      omega
  -- no surrogate
  have hgreatest : v / 64 % 64 + 0x80 ≤
      (if v / 4096 + 0xE0 = 0xED then (0x9F : UInt8) else 0xBF).toNat := by
    split
    · show _ ≤ 0x9F
      omega
    · show _ ≤ 0xBF
      omega
  have hlast := decodeFrom?_next_done ⟨0, 0x80, 0xBF, v / 4096 * 64 + v / 64 % 64⟩ rest
    (d := v % 64) rfl (by omega) (Nat.le_add_left _ _) (by show _ ≤ 0xBF; omega)
  have hbits : (v / 4096 * 64 + v / 64 % 64) * 64 + v % 64 = v := by omega
  generalize (if v / 4096 + 0xE0 = 0xE0 then (0xA0 : UInt8) else 0x80) = low at hfirst hleast
  generalize (if v / 4096 + 0xE0 = 0xED then (0x9F : UInt8) else 0xBF) = high at hfirst hgreatest
  rw [decodeFrom?_first_more hfirst, decodeFrom?_next_more ⟨1, low, high, v / 4096⟩ _ rfl (by omega)
    hleast hgreatest, hlast, hbits]

theorem decodeFrom?_four (hlow : 0x10000 ≤ v) (hhigh : v < 0x110000) :
    decodeFrom? none (UInt8.ofNat (v / 262144 % 8 + 0xF0) :: UInt8.ofNat (v / 4096 % 64 + 0x80) ::
        UInt8.ofNat (v / 64 % 64 + 0x80) :: UInt8.ofNat (v % 64 + 0x80) :: rest) =
      (decodeFrom? none rest).map (Char.ofNat v :: ·) := by
  have hb : (UInt8.ofNat (v / 262144 % 8 + 0xF0)).toNat = v / 262144 + 0xF0 := by
    rw [UInt8.toNat_ofNat']
    omega
  have hfirst : first (UInt8.ofNat (v / 262144 % 8 + 0xF0)) =
      .more ⟨2, if v / 262144 + 0xF0 = 0xF0 then 0x90 else 0x80,
        if v / 262144 + 0xF0 = 0xF4 then 0x8F else 0xBF, v / 262144⟩ := by
    rw [first, hb, if_neg (by omega), if_neg (by omega), if_neg (by omega), if_neg (by omega),
      if_pos (by omega), Nat.add_sub_cancel]
  -- no overlong form
  have hleast : (if v / 262144 + 0xF0 = 0xF0 then (0x90 : UInt8) else 0x80).toNat ≤
      v / 4096 % 64 + 0x80 := by
    split
    · show 0x90 ≤ _
      omega
    · show 0x80 ≤ _
      omega
  -- nothing beyond the last character
  have hgreatest : v / 4096 % 64 + 0x80 ≤
      (if v / 262144 + 0xF0 = 0xF4 then (0x8F : UInt8) else 0xBF).toNat := by
    split
    · show _ ≤ 0x8F
      omega
    · show _ ≤ 0xBF
      omega
  have hthird := decodeFrom?_next_more ⟨1, 0x80, 0xBF, v / 262144 * 64 + v / 4096 % 64⟩
    (UInt8.ofNat (v % 64 + 0x80) :: rest) (d := v / 64 % 64) rfl (by omega)
    (Nat.le_add_left _ _) (by show _ ≤ 0xBF; omega)
  have hlast := decodeFrom?_next_done
    ⟨0, 0x80, 0xBF, (v / 262144 * 64 + v / 4096 % 64) * 64 + v / 64 % 64⟩ rest
    (d := v % 64) rfl (by omega) (Nat.le_add_left _ _) (by show _ ≤ 0xBF; omega)
  have hbits : ((v / 262144 * 64 + v / 4096 % 64) * 64 + v / 64 % 64) * 64 + v % 64 = v := by
    omega
  generalize (if v / 262144 + 0xF0 = 0xF0 then (0x90 : UInt8) else 0x80) = low at hfirst hleast
  generalize (if v / 262144 + 0xF0 = 0xF4 then (0x8F : UInt8) else 0xBF) = high at hfirst hgreatest
  rw [decodeFrom?_first_more hfirst, decodeFrom?_next_more ⟨2, low, high, v / 262144⟩ _ rfl
    (by omega) hleast hgreatest, hthird, hlast, hbits]

end Lengths

theorem decodeFrom?_encodeChar (c : Char) (rest : Bytes) :
    decodeFrom? none (encodeChar c ++ rest) = (decodeFrom? none rest).map (c :: ·) := by
  -- a code point is no surrogate and not beyond the last one
  have hvalid : c.toNat < 0xD800 ∨ 0xDFFF < c.toNat ∧ c.toNat < 0x110000 := c.valid
  have hc : Char.ofNat c.toNat = c := Char.ofNat_toNat c
  have hval : c.val.toNat = c.toNat := rfl
  rw [encodeChar, String.utf8EncodeChar, hval]
  by_cases h1 : c.toNat ≤ 0x7F
  · rw [if_pos h1]
    exact (decodeFrom?_one (by omega)).trans (by rw [hc]; rfl)
  by_cases h2 : c.toNat ≤ 0x7FF
  · rw [if_neg h1, if_pos h2]
    exact (decodeFrom?_two (by omega) (by omega)).trans (by rw [hc]; rfl)
  by_cases h3 : c.toNat ≤ 0xFFFF
  · rw [if_neg h1, if_neg h2, if_pos h3]
    exact (decodeFrom?_three (by omega) (by omega) (by omega)).trans (by rw [hc]; rfl)
  · rw [if_neg h1, if_neg h2, if_neg h3]
    exact (decodeFrom?_four (by omega) (by omega)).trans (by rw [hc]; rfl)

/-! ## Texts -/

/-- **Text that was written as UTF-8 is read back.** -/
@[simp] theorem decode?_encode (cs : List Char) : decode? (encode cs) = some cs := by
  induction cs with
  | nil => rfl
  | cons c cs ih =>
      rw [decode?] at ih ⊢
      rw [encode, List.flatMap_cons, decodeFrom?_encodeChar, ← encode, ih]
      rfl

@[simp] theorem text?_encode (cs : List Char) : text? (encode cs) = some (String.ofList cs) := by
  rw [text?, decode?_encode]
  rfl

end CrashCourier.Text.Utf8
