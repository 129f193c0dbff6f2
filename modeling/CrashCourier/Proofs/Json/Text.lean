import CrashCourier.Json.Writer
import CrashCourier.Proofs.Json.Reader
import CrashCourier.Proofs.Text.Utf8
import Mathlib.Tactic.IntervalCases

/-!
# Strings read back

A string is a loop over octets. While it goes on, the octets of the characters that were taken pile up
in reverse, and when the closing quote comes they are decoded at once. So what has to be shown for one
character is that its written form, taken octet by octet, puts the UTF-8 octets of the character on
the pile: `runs_escapeChar`.

Most characters are written as their own octets, and none of those is a quote, a backslash or a
control. The rest are written as escapes.
-/

namespace CrashCourier.Json.Reader

open Text (Utf8.encode Utf8.encodeChar)

/-! ## Escapes -/

theorem leaves_hexEscape : Leaves hexEscape := by
  intro input rest n h
  unfold Gives hexEscape at h
  split at h
  · split at h
    · cases h
      simp only [List.length_cons]
      omega
    · cases h
  · cases h

theorem leaves_escapeMark (mark : Char) : Leaves (escapeMark mark) := by
  refine leaves_peek.bind fun c => ?_
  split
  · exact leaves_throw
  · split
    · exact leaves_skip
    · exact leaves_throw

theorem leaves_unicodeEscape : Leaves unicodeEscape := by
  refine leaves_hexEscape.bind fun n => ?_
  dsimp only
  have hhalves : Leaves (do
      escapeMark '\\'
      escapeMark 'u'
      let m ← hexEscape
      if m < 0xDC00 ∨ 0xDFFF < m then throw .loneSurrogate
      return Char.ofNat (0x10000 + (n - 0xD800) * 0x400 + (m - 0xDC00))) := by
    refine (leaves_escapeMark _).bind fun _ => (leaves_escapeMark _).bind fun _ =>
      leaves_hexEscape.bind fun m => ?_
    split
    · exact leaves_throw.bind fun _ => leaves_pure
    · exact leaves_pure
  split
  · refine leaves_throw.bind fun _ => ?_
    split
    · exact leaves_pure
    · exact hhalves
  · split
    · exact leaves_pure
    · exact hhalves

theorem leaves_escape : Leaves escape := by
  refine leaves_octet?.bind fun b => ?_
  split
  · exact leaves_throw
  · split
    · exact leaves_pure
    · split
      · exact leaves_unicodeEscape
      · exact leaves_throw

/-! ## The loop -/

/-- One step of the loop over the octets of a string. -/
def stringStep : Bytes → Reader (Bytes ⊕ String) := fun taken => do
  match ← octet? with
  | none => throw .endOfString
  | some b =>
    if b = 0x22 then
      match Text.Utf8.text? taken.reverse with
      | some s => return .inr s
      | none => throw .invalidCodePoint
    else if b = 0x5C then
      return .inl ((Text.Utf8.encodeChar (← escape)).reverse ++ taken)
    else if b < 0x20 then throw .controlCharacter
    else return .inl (b :: taken)

theorem stringBody_eq : stringBody = repeated stringStep [] := rfl

/-- What goes on has taken an octet. -/
theorem stringStep_advances : Advances stringStep := by
  intro taken taken' input rest h
  obtain ⟨b, mid, hb, h⟩ := gives_bind.mp h
  obtain ⟨rfl, rfl⟩ := gives_octet?.mp hb
  cases input with
  | nil => exact absurd h gives_throw
  | cons b input =>
      simp only [List.head?_cons, List.tail_cons] at h
      split at h
      · split at h
        · cases (gives_pure.mp h).1
        · exact absurd h gives_throw
      · split at h
        · obtain ⟨c, mid, hc, h⟩ := gives_bind.mp h
          obtain ⟨_, rfl⟩ := gives_pure.mp h
          exact Nat.lt_succ_of_le (leaves_escape hc)
        · split at h
          · exact absurd h gives_throw
          · obtain ⟨_, rfl⟩ := gives_pure.mp h
            exact Nat.lt_succ_self _

/-- The step that ends a string takes the quote. -/
theorem stringStep_inr {taken input rest : Bytes} {s : String}
    (h : Gives (stringStep taken) input (.inr s) rest) :
    input = 0x22 :: rest ∧ Text.Utf8.text? taken.reverse = some s := by
  obtain ⟨b, mid, hb, h⟩ := gives_bind.mp h
  obtain ⟨rfl, rfl⟩ := gives_octet?.mp hb
  cases input with
  | nil => exact absurd h gives_throw
  | cons b input =>
      simp only [List.head?_cons, List.tail_cons] at h
      split at h
      · rename_i hquote
        split at h
        · rename_i s' hs
          obtain ⟨heq, rfl⟩ := gives_pure.mp h
          injection heq with heq
          subst hquote; subst heq
          exact ⟨rfl, hs⟩
        · exact absurd h gives_throw
      · split at h
        · obtain ⟨c, mid, hc, h⟩ := gives_bind.mp h
          cases (gives_pure.mp h).1
        · split at h
          · exact absurd h gives_throw
          · cases (gives_pure.mp h).1

theorem shortens_stringBody : Shortens stringBody := by
  intro input rest s h
  rw [stringBody_eq, gives_repeated stringStep_advances] at h
  generalize ([] : Bytes) = taken at h
  induction h with
  | done hstep =>
      rw [(stringStep_inr hstep).1]
      exact Nat.lt_succ_self _
  | more hstep _ ih => exact Nat.lt_trans ih (stringStep_advances hstep)

theorem shortens_string : Shortens string :=
  leaves_skip.bind_shortens fun _ => shortens_stringBody

/-! ## What is written -/

/-- An octet that a string holds as it is. -/
def IsPlain (b : UInt8) : Prop :=
  b ≠ 0x22 ∧ b ≠ 0x5C ∧ ¬ b < 0x20

section Runs

variable {taken input rest : Bytes} {s : String}

theorem runs_plain {b : UInt8} (hb : IsPlain b) (h : Runs stringStep (b :: taken) input s rest) :
    Runs stringStep taken (b :: input) s rest := by
  refine .more (gives_bind.mpr ⟨some b, input, gives_octet?.mpr ⟨rfl, rfl⟩, ?_⟩) h
  obtain ⟨hquote, hbackslash, hcontrol⟩ := hb
  dsimp only
  rw [if_neg hquote, if_neg hbackslash, if_neg hcontrol]
  exact gives_pure.mpr ⟨rfl, rfl⟩

theorem runs_plains {bs : Bytes} (hbs : ∀ b ∈ bs, IsPlain b)
    (h : Runs stringStep (bs.reverse ++ taken) input s rest) :
    Runs stringStep taken (bs ++ input) s rest := by
  induction bs generalizing taken with
  | nil => exact h
  | cons b bs ih =>
      refine runs_plain (hbs b List.mem_cons_self) ?_
      refine ih (fun b' hb' => hbs b' (List.mem_cons_of_mem _ hb')) ?_
      rw [List.reverse_cons, List.append_assoc] at h
      exact h

theorem runs_escape {c : Char} (mid : Bytes) (hc : Gives escape mid c input)
    (h : Runs stringStep ((Text.Utf8.encodeChar c).reverse ++ taken) input s rest) :
    Runs stringStep taken (0x5C :: mid) s rest := by
  refine .more (gives_bind.mpr ⟨some 0x5C, mid, gives_octet?.mpr ⟨rfl, rfl⟩, ?_⟩) h
  dsimp only
  rw [if_neg (by decide), if_pos rfl]
  exact gives_bind.mpr ⟨c, input, hc, gives_pure.mpr ⟨rfl, rfl⟩⟩

end Runs

/-- The octets of a character that is neither a quote nor a backslash nor a control are plain. -/
theorem isPlain_of_mem_encodeChar {c : Char} (hquote : c ≠ '"') (hbackslash : c ≠ '\\')
    (hcontrol : ¬ c.toNat < 0x20) {b : UInt8} (hb : b ∈ Text.Utf8.encodeChar c) : IsPlain b := by
  have hne : ∀ {d : Char}, d.toNat < 0x80 → c ≠ d → b ≠ UInt8.ofNat d.toNat := by
    rintro d hd hcd rfl
    have hdn : (UInt8.ofNat d.toNat).toNat = d.toNat := by
      rw [UInt8.toNat_ofNat']
      omega
    rcases Text.Utf8.mem_encodeChar hb with ⟨hc, heq⟩ | hge
    · have hcn : (UInt8.ofNat c.toNat).toNat = c.toNat := by
        rw [UInt8.toNat_ofNat']
        omega
      refine hcd (Char.toNat_inj.mp ?_)
      rw [← hcn, ← heq, hdn]
    · omega
  refine ⟨hne (d := '"') (by decide) hquote, hne (d := '\\') (by decide) hbackslash, ?_⟩
  rw [UInt8.lt_iff_toNat_lt]
  show ¬ b.toNat < 0x20
  rcases Text.Utf8.mem_encodeChar hb with ⟨hc, rfl⟩ | hge
  · rw [UInt8.toNat_ofNat']
    omega
  · omega

/-- A control is written in hexadecimal: `\u` and four digits of its number. -/
theorem hex_control {n : Nat} (hn : n < 0x20) :
    ∃ a b c d : UInt8, Utf8.encode ('\\' :: 'u' :: Text.hex 4 n) = [0x5C, 0x75, a, b, c, d] ∧
      Text.ofHex? ([a, b, c, d].map Char.ofUInt8) = some n := by
  interval_cases n <;> exact ⟨_, _, _, _, rfl, by decide⟩

theorem gives_escape_control {n : Nat} (hn : n < 0x20) {a b c d : UInt8}
    (hhex : Text.ofHex? ([a, b, c, d].map Char.ofUInt8) = some n) (rest : Bytes) :
    Gives escape (0x75 :: a :: b :: c :: d :: rest) (Char.ofNat n) rest := by
  have hfour : Gives hexEscape (a :: b :: c :: d :: rest) n rest := by
    simp only [Gives, hexEscape, hhex]
  have hunicode : Gives unicodeEscape (a :: b :: c :: d :: rest) (Char.ofNat n) rest := by
    refine gives_bind.mpr ⟨n, rest, hfour, ?_⟩
    dsimp only
    rw [if_neg (by omega), if_pos (by omega)]
    exact gives_pure.mpr ⟨rfl, rfl⟩
  exact gives_bind.mpr ⟨some 0x75, _, gives_octet?.mpr ⟨rfl, rfl⟩, hunicode⟩

/-- **A written character is taken as the octets of the character.** -/
theorem runs_escapeChar {c : Char} {taken input rest : Bytes} {s : String}
    (h : Runs stringStep ((Text.Utf8.encodeChar c).reverse ++ taken) input s rest) :
    Runs stringStep taken (escapeChar c ++ input) s rest := by
  unfold escapeChar
  split
  · exact runs_escape (0x22 :: input) rfl h
  · exact runs_escape (0x5C :: input) rfl h
  · exact runs_escape (0x62 :: input) rfl h
  · exact runs_escape (0x66 :: input) rfl h
  · exact runs_escape (0x6E :: input) rfl h
  · exact runs_escape (0x72 :: input) rfl h
  · exact runs_escape (0x74 :: input) rfl h
  · rename_i hquote hbackslash _ _ _ _ _
    split
    · rename_i hcontrol
      obtain ⟨a, b, d, e, hwritten, hhex⟩ := hex_control hcontrol
      rw [hwritten]
      refine runs_escape _ (gives_escape_control hcontrol hhex input) ?_
      rw [Char.ofNat_toNat]
      exact h
    · rename_i hcontrol
      exact runs_plains (fun b hb => isPlain_of_mem_encodeChar hquote hbackslash hcontrol hb) h

/-- The characters that are left of a string, the ones before them taken. -/
theorem runs_chars (before after : List Char) (rest : Bytes) :
    Runs stringStep (Utf8.encode before).reverse (after.flatMap escapeChar ++ 0x22 :: rest)
      (String.ofList (before ++ after)) rest := by
  induction after generalizing before with
  | nil =>
      refine .done (gives_bind.mpr ⟨some 0x22, rest, gives_octet?.mpr ⟨rfl, rfl⟩, ?_⟩)
      dsimp only
      rw [if_pos rfl, List.reverse_reverse, Text.Utf8.text?_encode, List.append_nil]
      exact gives_pure.mpr ⟨rfl, rfl⟩
  | cons c after ih =>
      rw [List.flatMap_cons, List.append_assoc]
      refine runs_escapeChar ?_
      have hrest := ih (before ++ [c])
      have henc : Utf8.encode (before ++ [c]) = Utf8.encode before ++ Text.Utf8.encodeChar c := by
        simp [Utf8.encode]
      rw [henc, List.reverse_append, List.append_assoc] at hrest
      exact hrest

/-- **A string that was written is read back.** -/
theorem gives_string_write (s : String) (rest : Bytes) :
    Gives string (writeString s ++ rest) s rest := by
  refine gives_bind.mpr ⟨(), s.toList.flatMap escapeChar ++ 0x22 :: rest, ?_, ?_⟩
  · rw [gives_skip, writeString]
    simp
  · rw [stringBody_eq, gives_repeated stringStep_advances]
    have h := runs_chars [] s.toList rest
    rw [List.nil_append, String.ofList_toList] at h
    exact h

end CrashCourier.Json.Reader
