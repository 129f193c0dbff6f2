import CrashCourier.Proofs.Json.Grammar

/-!
# No document goes on behind another

A text that is one document, with more behind it, is a document again only if the more is blank. What
decides the matter is how far a reader looks: a result that leaves something over depends on nothing
behind the first octet that is left (`Local`). This holds of a numeral too, although a numeral by
itself does not say where it ends.

Of the values only numbers can be left open at the end of a text. Every other part of a document is
closed by an octet of its own, and what it is does not change with what comes behind
(`Spells.append`). Since a text spells one value and leaves one rest, the octets that were put behind
a collection are all left over, and what is left over is blank.
-/

namespace CrashCourier.Json

namespace Reader

variable {α β σ : Type}

/-! ## How far readers look -/

/-- A result that leaves something does not depend on what is behind that. -/
structure Local (r : Reader α) : Prop where
  leaves : Leaves r
  append : ∀ ⦃input rest more : Bytes⦄ ⦃a : α⦄, Gives r input a rest → rest ≠ [] →
    Gives r (input ++ more) a (rest ++ more)

theorem ne_nil_of_length_le {bs cs : Bytes} (h : bs.length ≤ cs.length) (hne : bs ≠ []) :
    cs ≠ [] := by
  have hpos := List.length_pos_iff.mpr hne
  exact List.ne_nil_of_length_pos (by omega)

theorem local_pure {a : α} : Local (pure a : Reader α) := by
  refine ⟨leaves_pure, ?_⟩
  intro input rest more b h _
  obtain ⟨rfl, rfl⟩ := gives_pure.mp h
  exact gives_pure.mpr ⟨rfl, rfl⟩

theorem local_throw {fault : Fault} : Local (throw fault : Reader α) :=
  ⟨leaves_throw, fun _ _ _ _ h => absurd h gives_throw⟩

theorem Local.bind {r : Reader α} {f : α → Reader β} (hr : Local r) (hf : ∀ a, Local (f a)) :
    Local (r >>= f) := by
  refine ⟨hr.leaves.bind fun a => (hf a).leaves, ?_⟩
  intro input rest more b h hrest
  obtain ⟨a, mid, ha, hb⟩ := gives_bind.mp h
  -- the second reader leaves something, so that the first one did
  have hmid : mid ≠ [] := ne_nil_of_length_le ((hf a).leaves hb) hrest
  exact gives_bind.mpr ⟨a, mid ++ more, hr.append ha hmid, (hf a).append hb hrest⟩

theorem head?_append_of_ne_nil {bs more : Bytes} (h : bs ≠ []) : (bs ++ more).head? = bs.head? := by
  cases bs with
  | nil => exact absurd rfl h
  | cons b bs => rfl

theorem local_peek : Local peek := by
  refine ⟨leaves_peek, ?_⟩
  intro input rest more c h hrest
  obtain ⟨rfl, rfl⟩ := gives_peek.mp h
  exact gives_peek.mpr ⟨by rw [head?_append_of_ne_nil hrest], rfl⟩

theorem local_octet? : Local octet? := by
  refine ⟨leaves_octet?, ?_⟩
  intro input rest more b h hrest
  obtain ⟨rfl, rfl⟩ := gives_octet?.mp h
  cases input with
  | nil => exact absurd rfl hrest
  | cons b input => exact gives_octet?.mpr ⟨rfl, rfl⟩

theorem local_skip : Local skip := by
  refine ⟨leaves_skip, ?_⟩
  intro input rest more u h hrest
  obtain rfl := gives_skip.mp h
  cases input with
  | nil => exact absurd rfl hrest
  | cons b input => exact gives_skip.mpr rfl

/-! ### Numerals -/

theorem local_digits : Local digits := by
  refine ⟨?_, ?_⟩
  · intro input rest ds h
    rw [(gives_digits.mp h).2]
    exact (List.dropWhile_sublist isDigit).length_le
  · intro input rest more ds h hrest
    obtain ⟨rfl, rfl⟩ := gives_digits.mp h
    have hopen : (input.dropWhile isDigit).isEmpty = false := by
      simpa only [List.isEmpty_eq_false_iff] using hrest
    -- the digits stop before the end, and so they stop there with more behind as well
    have htake : (input.takeWhile isDigit).length ≠ input.length := by
      intro hall
      have hsplit := congrArg List.length (List.takeWhile_append_dropWhile (p := isDigit) (l := input))
      have hpos := List.length_pos_iff.mpr hrest
      rw [List.length_append] at hsplit
      omega
    refine gives_digits.mpr ⟨?_, ?_⟩
    · rw [List.takeWhile_append, if_neg htake]
    · rw [List.dropWhile_append, hopen]
      rfl

theorem local_someDigits (atEnd : Fault) : Local (someDigits atEnd) := by
  refine ⟨(shortens_someDigits atEnd).leaves, ?_⟩
  intro input rest more ds h hrest
  obtain ⟨hds, hne⟩ := gives_someDigits.mp h
  exact gives_someDigits.mpr ⟨local_digits.append hds hrest, hne⟩

theorem local_wholeDigits (atEnd : Fault) : Local (wholeDigits atEnd) := by
  refine ⟨?_, ?_⟩
  · intro input rest ds h
    exact (shortens_someDigits atEnd).leaves (gives_wholeDigits.mp h).1
  · intro input rest more ds h hrest
    obtain ⟨hds, hzero⟩ := gives_wholeDigits.mp h
    exact gives_wholeDigits.mpr ⟨(local_someDigits atEnd).append hds hrest, hzero⟩

theorem local_fraction (atEnd : Fault) : Local (fraction atEnd) := by
  refine local_peek.bind fun c => ?_
  split
  · exact local_skip.bind fun _ => (local_someDigits atEnd).bind fun _ => local_pure
  · exact local_pure

theorem local_signedDigits (atEnd : Fault) : Local (signedDigits atEnd) := by
  refine local_peek.bind fun c => ?_
  split
  · exact local_skip.bind fun _ => (local_someDigits atEnd).bind fun _ => local_pure
  · exact local_skip.bind fun _ => (local_someDigits atEnd).bind fun _ => local_pure
  · exact (local_someDigits atEnd).bind fun _ => local_pure

theorem local_power (atEnd : Fault) : Local (power atEnd) := by
  rw [power_eq]
  refine local_peek.bind fun c => ?_
  split
  · exact local_skip.bind fun _ => local_signedDigits atEnd
  · exact local_pure

theorem local_unsigned (atEnd : Fault) (negative : Bool) : Local (unsigned atEnd negative) :=
  (local_wholeDigits atEnd).bind fun _ => (local_fraction atEnd).bind fun _ =>
    (local_power atEnd).bind fun _ => local_pure

/-- **A numeral looks one octet ahead.** -/
theorem local_numeral (atEnd : Fault) : Local (numeral atEnd) := by
  rw [numeral_eq]
  refine local_peek.bind fun c => ?_
  split
  · exact local_skip.bind fun _ => local_unsigned atEnd true
  · exact local_unsigned atEnd false

/-! ### Strings -/

theorem local_hexEscape : Local hexEscape := by
  refine ⟨leaves_hexEscape, ?_⟩
  intro input rest more n h _
  unfold Gives hexEscape at h
  split at h
  · split at h
    · rename_i hn
      cases h
      simp only [Gives, List.cons_append, hexEscape, hn]
    · cases h
  · cases h

theorem local_escapeMark (mark : Char) : Local (escapeMark mark) := by
  refine local_peek.bind fun c => ?_
  split
  · exact local_throw
  · split
    · exact local_skip
    · exact local_throw

theorem local_unicodeEscape : Local unicodeEscape := by
  refine local_hexEscape.bind fun n => ?_
  dsimp only
  have hhalves : Local (do
      escapeMark '\\'
      escapeMark 'u'
      let m ← hexEscape
      if m < 0xDC00 ∨ 0xDFFF < m then throw .loneSurrogate
      return Char.ofNat (0x10000 + (n - 0xD800) * 0x400 + (m - 0xDC00))) := by
    refine (local_escapeMark _).bind fun _ => (local_escapeMark _).bind fun _ =>
      local_hexEscape.bind fun m => ?_
    split
    · exact local_throw.bind fun _ => local_pure
    · exact local_pure
  split
  · refine local_throw.bind fun _ => ?_
    split
    · exact local_pure
    · exact hhalves
  · split
    · exact local_pure
    · exact hhalves

theorem local_escape : Local escape := by
  refine local_octet?.bind fun b => ?_
  split
  · exact local_throw
  · split
    · exact local_pure
    · split
      · exact local_unicodeEscape
      · exact local_throw

theorem local_stringStep (taken : Bytes) : Local (stringStep taken) := by
  refine local_octet?.bind fun b => ?_
  split
  · exact local_throw
  · split
    · split
      · exact local_pure
      · exact local_throw
    · split
      · exact local_escape.bind fun _ => local_pure
      · split
        · exact local_throw
        · exact local_pure

/-- Where steps lead to the end of a string there is something ahead: the closing quote, if nothing
else. -/
theorem ne_nil_of_runs {taken input rest : Bytes} {s : String}
    (h : Runs stringStep taken input s rest) : input ≠ [] := by
  cases h with
  | done hstep =>
      rw [(stringStep_inr hstep).1]
      exact List.cons_ne_nil _ _
  | more hstep _ =>
      have hlt := stringStep_advances hstep
      exact List.ne_nil_of_length_pos (by omega)

theorem runs_append {taken input rest : Bytes} {s : String}
    (h : Runs stringStep taken input s rest) (more : Bytes) :
    Runs stringStep taken (input ++ more) s (rest ++ more) := by
  induction h with
  | @done taken input rest s hstep =>
      -- the closing quote is the last octet that is looked at
      obtain ⟨rfl, htext⟩ := stringStep_inr hstep
      refine .done (gives_bind.mpr ⟨some 0x22, rest ++ more, gives_octet?.mpr ⟨rfl, rfl⟩, ?_⟩)
      dsimp only
      rw [if_pos rfl, htext]
      exact gives_pure.mpr ⟨rfl, rfl⟩
  | @more taken taken' input mid rest s hstep hrun ih =>
      exact .more ((local_stringStep taken).append hstep (ne_nil_of_runs hrun)) ih

/-- **A string ends with its quote**, whatever is behind. -/
theorem gives_string_append {tail rest : Bytes} {s : String}
    (h : Gives string (0x22 :: tail) s rest) (more : Bytes) :
    Gives string (0x22 :: tail ++ more) s (rest ++ more) := by
  obtain ⟨_, mid, hskip, hbody⟩ := gives_bind.mp h
  have hmid : mid = tail := gives_skip.mp hskip
  rw [hmid, stringBody_eq, gives_repeated stringStep_advances] at hbody
  refine gives_bind.mpr ⟨(), tail ++ more, gives_skip.mpr rfl, ?_⟩
  rw [stringBody_eq, gives_repeated stringStep_advances]
  exact runs_append hbody more

end Reader

open Reader

/-! ## Parts of a document -/

/-- The part ends with an octet of its own: it is no number. -/
def Part.Closed : Part → Prop
  | .value (.number _) => False
  | _ => True

theorem dropWhile_append_of_eq_cons {input tail : Bytes} {b : UInt8} (more : Bytes)
    (h : input.dropWhile isBlank = b :: tail) :
    (input ++ more).dropWhile isBlank = b :: (tail ++ more) := by
  rw [List.dropWhile_append, h]
  rfl

/-- The same for a word of which the first octet is known. -/
theorem dropWhile_append_of_ne_nil {input : Bytes} (more : Bytes)
    (h : input.dropWhile isBlank ≠ []) :
    (input ++ more).dropWhile isBlank = input.dropWhile isBlank ++ more := by
  obtain ⟨b, tail, hinput⟩ := List.exists_cons_of_ne_nil h
  rw [dropWhile_append_of_eq_cons more hinput, hinput]
  rfl

theorem ne_nil_of_dropWhile {input tail : Bytes} {b : UInt8}
    (h : input.dropWhile isBlank = b :: tail) : input ≠ [] := by
  rintro rfl
  cases h

theorem Reader.Separated.append {first : Bool} {input mid : Bytes} (h : Separated first input mid)
    (more : Bytes) : Separated first (input ++ more) (mid ++ more) := by
  cases first with
  | true =>
      obtain rfl : mid = input := h
      rfl
  | false => exact dropWhile_append_of_eq_cons more h

theorem Reader.Separated.ne_nil {first : Bool} {input mid : Bytes} (h : Separated first input mid)
    (hmid : mid ≠ []) : input ≠ [] := by
  cases first with
  | true =>
      obtain rfl : mid = input := h
      exact hmid
  | false => exact ne_nil_of_dropWhile h

namespace Spells

variable {input rest : Bytes} {part : Part}

/-- Nothing is spelled by nothing. -/
theorem ne_nil (h : Spells input part rest) : input ≠ [] := by
  induction h with
  | null hinput | text hinput | list hinput | object hinput | endOfList hinput
  | endOfObject hinput => exact ne_nil_of_dropWhile hinput
  | @truth input rest b hinput =>
      rintro rfl
      cases b <;> cases hinput
  | number hnumeral _ =>
      rintro rfl
      exact absurd (shortens_numeral _ hnumeral) (Nat.not_lt_zero _)
  | item hsep _ _ hmid _ => exact hsep.ne_nil hmid
  | member hsep hmid => exact hsep.ne_nil (ne_nil_of_dropWhile hmid)

/-- **A part is spelled the same with more behind it**, unless it is a number that ends the text. -/
theorem append (h : Spells input part rest) (more : Bytes) (hrest : rest = [] → part.Closed) :
    Spells (input ++ more) part (rest ++ more) := by
  induction h with
  | null hinput => exact .null (dropWhile_append_of_eq_cons more hinput)
  | @truth input rest b hinput =>
      refine .truth ?_
      have hne : input.dropWhile isBlank ≠ [] := by
        rw [hinput]
        cases b <;> exact List.cons_ne_nil _ _
      rw [dropWhile_append_of_ne_nil more hne, hinput, List.append_assoc]
  | text hinput hs =>
      exact .text (dropWhile_append_of_eq_cons more hinput) (gives_string_append hs more)
  | @number input rest numeral n hnumeral hn =>
      -- the numeral has seen the octet that ends it
      have hopen : rest ≠ [] := hrest
      have hne := ne_nil_of_length_le ((shortens_numeral _).leaves hnumeral) hopen
      refine .number ?_ hn
      rw [dropWhile_append_of_ne_nil more hne]
      exact (local_numeral _).append hnumeral hopen
  | list hinput _ ih =>
      exact .list (dropWhile_append_of_eq_cons more hinput) (ih fun _ => trivial)
  | object hinput _ ih =>
      exact .object (dropWhile_append_of_eq_cons more hinput) (ih fun _ => trivial)
  | endOfList hinput => exact .endOfList (dropWhile_append_of_eq_cons more hinput)
  | item hsep _ hitems ihv ihitems =>
      -- behind the value there is a comma or the bracket at least
      have hafter := hitems.ne_nil
      exact .item (hsep.append more) (ihv fun hnil => absurd hnil hafter)
        (ihitems fun _ => trivial)
  | endOfObject hinput => exact .endOfObject (dropWhile_append_of_eq_cons more hinput)
  | member hsep hmid hkey hcolon _ hmembers ihv ihmembers =>
      have hlast := hmembers.ne_nil
      exact .member (hsep.append more) (dropWhile_append_of_eq_cons more hmid)
        (gives_string_append hkey more) (dropWhile_append_of_eq_cons more hcolon)
        (ihv fun hnil => absurd hnil hlast) (ihmembers fun _ => trivial)

/-- A text spells one value and leaves one rest. -/
theorem eq {v w : Value} {rest' : Bytes} (h : Spells input (.value v) rest)
    (h' : Spells input (.value w) rest') : w = v ∧ rest' = rest := by
  have hv := gives_raw_iff.mpr ⟨h, Nat.le_max_left v.depth w.depth⟩
  have hw := gives_raw_iff.mpr ⟨h', Nat.le_max_right v.depth w.depth⟩
  exact hv.eq hw

end Spells

/-! ## Documents -/

/-- All octets are blank. -/
def Blank (bs : Bytes) : Prop :=
  bs.dropWhile isBlank = []

theorem blank_append {bs more : Bytes} : Blank (bs ++ more) ↔ Blank bs ∧ Blank more := by
  simp only [Blank, List.dropWhile_eq_nil_iff, List.mem_append]
  refine ⟨?_, ?_⟩
  · intro h
    exact ⟨fun b hb => h b (.inl hb), fun b hb => h b (.inr hb)⟩
  · rintro ⟨h, hmore⟩ b (hb | hb)
    · exact h b hb
    · exact hmore b hb

theorem not_blank_of_mem {bs : Bytes} {b : UInt8} (hb : b ∈ bs) (h : isBlank b = false) :
    ¬ Blank bs := by
  intro hblank
  have hall := List.dropWhile_eq_nil_iff.mp hblank b hb
  rw [h] at hall
  cases hall

namespace TextOf

variable {input more : Bytes} {v w : Value}

/-- **What goes on behind a closed value is blank**, if the whole is a text again. -/
theorem blank_behind (h : TextOf input v) (hv : (Part.value v).Closed)
    (hmore : TextOf (input ++ more) w) : Blank more := by
  obtain ⟨rest, hspells, _⟩ := h
  obtain ⟨rest', hwhole, hblank⟩ := hmore
  obtain ⟨_, hrest⟩ := (hspells.append more fun _ => hv).eq hwhole
  rw [hrest] at hblank
  exact (blank_append.mp hblank).2

/-- Blanks behind a closed value change nothing. -/
theorem append_blank (h : TextOf input v) (hv : (Part.value v).Closed) (hmore : Blank more) :
    TextOf (input ++ more) v := by
  obtain ⟨rest, hspells, hblank⟩ := h
  exact ⟨rest ++ more, hspells.append more fun _ => hv, blank_append.mpr ⟨hblank, hmore⟩⟩

end TextOf

/-! ## Records -/

namespace Record

variable {α : Type} [Record α] {input more : Bytes} {a b : α}

/-- The text of a record is that of an object. -/
theorem textOf_object {name : String} {fields : Fields} (hshape : shape α = .record name fields)
    (h : ofBytes input = .ok a) : ∃ ms, TextOf input (.object ms) := by
  obtain ⟨v, htext, _, hof⟩ := ofBytes_eq_ok_iff.mp h
  have hsome : ((Shape.record name fields).ofValue? v).isSome := by
    rw [← hshape, hof]
    rfl
  cases v with
  | object ms => exact ⟨ms, htext⟩
  | _ => cases hsome

/-- **Records are free of prefixes, blanks apart**: the text of a record with more behind it is the
text of a record just in case the more is blank, and then it is the same record. -/
theorem ofBytes_append_iff {name : String} {fields : Fields}
    (hshape : shape α = .record name fields) (h : ofBytes input = .ok a) :
    ofBytes (input ++ more) = .ok b ↔ Blank more ∧ b = a := by
  obtain ⟨ms, htext⟩ := textOf_object hshape h
  obtain ⟨v, hv, hdepth, hof⟩ := ofBytes_eq_ok_iff.mp h
  obtain rfl := hv.eq htext
  have hgo (hmore : Blank more) : ofBytes (input ++ more) = .ok a :=
    ofBytes_eq_ok_iff.mpr ⟨_, htext.append_blank trivial hmore, hdepth, hof⟩
  refine ⟨?_, ?_⟩
  · intro hwhole
    obtain ⟨w, hw, _⟩ := ofBytes_eq_ok_iff.mp hwhole
    have hblank := htext.blank_behind trivial hw
    have hsame := (hgo hblank).symm.trans hwhole
    exact ⟨hblank, (Except.ok.inj hsame).symm⟩
  · rintro ⟨hmore, rfl⟩
    exact hgo hmore

end Record

end CrashCourier.Json
