import CrashCourier.Proofs.Json.Echo
import CrashCourier.Proofs.Text.Hex

/-!
# Tokens

Words, strings and numerals are the tokens of a document that can be read as a value. A token is known by
its octets, also if nothing can be read of it: a numeral may be out of range, and a string may hold half
a character (`IsToken`).

A token that stands in a text is read as it is read by itself (`spells_token`), and the text goes on
behind it. For a string this is so because a reader that gets to a quote has taken whole escapes on its
way, so it cannot mistake an escaped quote for the last one.
-/

namespace CrashCourier.Json

open Reader

/-! ## What a token is -/

/-- What may stand between the quotes of a string. -/
inductive StringBody : Bytes → Prop where
  | nil : StringBody []
  | plain {b : UInt8} {tail : Bytes} : IsPlain b → StringBody tail → StringBody (b :: tail)
  | short {e : UInt8} {tail : Bytes} :
      (escaped? (Char.ofUInt8 e)).isSome → StringBody tail → StringBody (0x5C :: e :: tail)
  | hex {a b c d : UInt8} {tail : Bytes} :
      (∀ x ∈ [a, b, c, d], Text.IsHexDigit (Char.ofUInt8 x)) → StringBody tail →
      StringBody (0x5C :: 0x75 :: a :: b :: c :: d :: tail)

def IsString (w : Bytes) : Prop :=
  ∃ body, StringBody body ∧ w = 0x22 :: (body ++ [0x22])

/-- A string begins with a quote. -/
theorem IsString.head {w : Bytes} (h : IsString w) (rest : Bytes) : ∃ tail, w ++ rest = 0x22 :: tail := by
  obtain ⟨body, _, rfl⟩ := h
  exact ⟨_, rfl⟩

/-- A numeral by its form; it may be out of range. -/
def IsNumeral (w : Bytes) : Prop :=
  ∃ n, Gives (numeral .endOfValue) w n []

inductive IsToken : Bytes → Prop where
  | null : IsToken (octets "null")
  | truth (b : Bool) : IsToken (writeTruth b)
  | text {w : Bytes} : IsString w → IsToken w
  | number {w : Bytes} : IsNumeral w → IsToken w

namespace Reader

/-! ## Strings -/

theorem gives_hexEscape {input rest : Bytes} {n : Nat} : Gives hexEscape input n rest ↔
    ∃ a b c d, input = a :: b :: c :: d :: rest ∧
      Text.ofHex? ([a, b, c, d].map Char.ofUInt8) = some n := by
  constructor
  · intro h
    unfold Gives hexEscape at h
    split at h
    · next a b c d tail =>
        split at h
        · next m hm =>
            cases h
            exact ⟨a, b, c, d, rfl, hm⟩
        · cases h
    · cases h
  · rintro ⟨a, b, c, d, rfl, hn⟩
    simp only [Gives, hexEscape, hn]

theorem gives_escapeMark {mark : Char} {input rest : Bytes} {u : Unit} :
    Gives (escapeMark mark) input u rest ↔ ∃ b, input = b :: rest ∧ Char.ofUInt8 b = mark := by
  unfold escapeMark
  rw [gives_bind]
  constructor
  · rintro ⟨c, mid, hc, h⟩
    obtain ⟨rfl, hmid⟩ := gives_peek.mp hc
    subst hmid
    cases mid with
    | nil => exact absurd h gives_throw
    | cons b tail =>
        simp only [List.head?_cons, Option.map_some] at h
        split at h
        · next hb =>
            obtain rfl : rest = tail := gives_skip.mp h
            exact ⟨b, rfl, hb⟩
        · exact absurd h gives_throw
  · rintro ⟨b, rfl, hb⟩
    refine ⟨some (Char.ofUInt8 b), b :: rest, gives_peek.mpr ⟨rfl, rfl⟩, ?_⟩
    dsimp only
    rw [if_pos hb]
    exact gives_skip.mpr rfl

/-- A character beyond U+FFFF is two escapes, any other one is one. -/
theorem gives_unicodeEscape {input rest : Bytes} {c : Char} : Gives unicodeEscape input c rest ↔
    ∃ n mid, Gives hexEscape input n mid ∧
      ((n < 0xD800 ∨ 0xDFFF < n) ∧ c = Char.ofNat n ∧ rest = mid ∨
        (0xD800 ≤ n ∧ n ≤ 0xDBFF) ∧ ∃ m tail, mid = 0x5C :: 0x75 :: tail ∧
          Gives hexEscape tail m rest ∧ (0xDC00 ≤ m ∧ m ≤ 0xDFFF) ∧
          c = Char.ofNat (0x10000 + (n - 0xD800) * 0x400 + (m - 0xDC00))) := by
  unfold unicodeEscape
  rw [gives_bind]
  refine exists_congr fun n => exists_congr fun mid => and_congr_right fun _ => ?_
  by_cases hlow : 0xDC00 ≤ n ∧ n ≤ 0xDFFF
  · rw [if_pos hlow]
    refine iff_of_false ?_ (by omega)
    intro h
    obtain ⟨_, _, hthrow, _⟩ := gives_bind.mp h
    exact gives_throw hthrow
  rw [if_neg hlow]
  dsimp only
  by_cases hsingle : n < 0xD800 ∨ 0xDBFF < n
  · rw [if_pos hsingle, gives_pure]
    have hone : n < 0xD800 ∨ 0xDFFF < n := by omega
    have hpair : ¬ (0xD800 ≤ n ∧ n ≤ 0xDBFF) := by omega
    simp only [hone, hpair, true_and, false_and, or_false]
  rw [if_neg hsingle]
  have hone : ¬ (n < 0xD800 ∨ 0xDFFF < n) := by omega
  have hpair : 0xD800 ≤ n ∧ n ≤ 0xDBFF := by omega
  simp only [hone, hpair, true_and, false_and, false_or, and_self]
  constructor
  · intro h
    obtain ⟨_, after, hbackslash, hafter⟩ := gives_bind.mp h
    obtain ⟨_, tail, hu, htail⟩ := gives_bind.mp hafter
    obtain ⟨m, last, hm, hlast⟩ := gives_bind.mp htail
    obtain ⟨b, hmid, hb⟩ := gives_escapeMark.mp hbackslash
    obtain ⟨b', hrest, hb'⟩ := gives_escapeMark.mp hu
    have hb5C : b = 0x5C := ofUInt8_inj.mp hb
    have hb75 : b' = 0x75 := ofUInt8_inj.mp hb'
    rw [hmid, hrest, hb5C, hb75]
    -- the second escape is out of range, or it is the other half
    split at hlast
    · obtain ⟨_, _, hthrow, _⟩ := gives_bind.mp hlast
      exact absurd hthrow gives_throw
    · obtain ⟨hc, hlast⟩ := gives_pure.mp hlast
      exact ⟨m, tail, rfl, hlast ▸ hm, by omega, hc⟩
  · rintro ⟨m, tail, rfl, hm, hsecond, hc⟩
    refine gives_bind.mpr ⟨(), 0x75 :: tail, gives_escapeMark.mpr ⟨0x5C, rfl, rfl⟩, ?_⟩
    refine gives_bind.mpr ⟨(), tail, gives_escapeMark.mpr ⟨0x75, rfl, rfl⟩, ?_⟩
    refine gives_bind.mpr ⟨m, rest, hm, ?_⟩
    rw [if_neg (by omega)]
    exact gives_pure.mpr ⟨hc, rfl⟩

theorem gives_escape {input rest : Bytes} {c : Char} : Gives escape input c rest ↔
    ∃ e tail, input = e :: tail ∧ (escaped? (Char.ofUInt8 e) = some c ∧ rest = tail ∨
      e = 0x75 ∧ Gives unicodeEscape tail c rest) := by
  unfold escape
  rw [gives_bind]
  constructor
  · rintro ⟨e?, tail, he, h⟩
    obtain ⟨rfl, rfl⟩ := gives_octet?.mp he
    cases input with
    | nil => exact absurd h gives_throw
    | cons e tail =>
        simp only [List.head?_cons, List.tail_cons] at h
        refine ⟨e, tail, rfl, ?_⟩
        split at h
        · next d hd =>
            obtain ⟨rfl, rfl⟩ := gives_pure.mp h
            exact .inl ⟨hd, rfl⟩
        · split at h
          · next hu => exact .inr ⟨ofUInt8_inj.mp hu, h⟩
          · exact absurd h gives_throw
  · rintro ⟨e, tail, rfl, ⟨hd, rfl⟩ | ⟨rfl, h⟩⟩
    · refine ⟨some e, rest, gives_octet?.mpr ⟨rfl, rfl⟩, ?_⟩
      simp only [hd]
      exact gives_pure.mpr ⟨rfl, rfl⟩
    · exact ⟨some 0x75, tail, gives_octet?.mpr ⟨rfl, rfl⟩, h⟩

/-- The step that goes on takes an octet as it is or an escape. -/
theorem stringStep_inl {taken taken' input rest : Bytes} :
    Gives (stringStep taken) input (.inl taken') rest ↔
      (∃ b, IsPlain b ∧ input = b :: rest ∧ taken' = b :: taken) ∨
      ∃ tail c, input = 0x5C :: tail ∧ Gives escape tail c rest ∧
        taken' = (Text.Utf8.encodeChar c).reverse ++ taken := by
  unfold stringStep
  rw [gives_bind]
  constructor
  · rintro ⟨b?, tail, hb, h⟩
    obtain ⟨rfl, rfl⟩ := gives_octet?.mp hb
    cases input with
    | nil => exact absurd h gives_throw
    | cons b tail =>
        simp only [List.head?_cons, List.tail_cons] at h
        split at h
        · split at h
          · cases (gives_pure.mp h).1
          · exact absurd h gives_throw
        · next hquote =>
            split at h
            · next hbackslash =>
                obtain ⟨c, mid, hc, h⟩ := gives_bind.mp h
                obtain ⟨heq, rfl⟩ := gives_pure.mp h
                exact .inr ⟨tail, c, by rw [hbackslash], hc, Sum.inl.inj heq⟩
            · next hbackslash =>
                split at h
                · exact absurd h gives_throw
                · next hcontrol =>
                    obtain ⟨heq, rfl⟩ := gives_pure.mp h
                    exact .inl ⟨b, ⟨hquote, hbackslash, hcontrol⟩, rfl, Sum.inl.inj heq⟩
  · rintro (⟨b, ⟨hquote, hbackslash, hcontrol⟩, rfl, rfl⟩ | ⟨tail, c, rfl, hc, rfl⟩)
    · refine ⟨some b, rest, gives_octet?.mpr ⟨rfl, rfl⟩, ?_⟩
      dsimp only
      rw [if_neg hquote, if_neg hbackslash, if_neg hcontrol]
      exact gives_pure.mpr ⟨rfl, rfl⟩
    · refine ⟨some 0x5C, tail, gives_octet?.mpr ⟨rfl, rfl⟩, ?_⟩
      dsimp only
      rw [if_neg (by decide), if_pos rfl]
      exact gives_bind.mpr ⟨c, rest, hc, gives_pure.mpr ⟨rfl, rfl⟩⟩

/-! ### Strings in a text -/

section InText

variable {body tail mid rest : Bytes} {c : Char}

/-- Where the mark of a character in hexadecimal stands its four digits follow. -/
theorem exists_of_hexMark (h : StringBody body) (hmark : body ++ 0x22 :: rest = 0x5C :: 0x75 :: tail) :
    ∃ w x y z body', StringBody body' ∧ body = 0x5C :: 0x75 :: w :: x :: y :: z :: body' := by
  cases h with
  | nil => cases hmark
  | plain hb _ => exact absurd (List.cons.inj hmark).1 hb.2.1
  | short he _ =>
      cases hmark
      cases he
  | hex _ hbody => exact ⟨_, _, _, _, _, hbody, rfl⟩

/-- An escape that is read out of a string is a whole number of its escapes. -/
theorem exists_of_escape (h : StringBody (0x5C :: tail))
    (hc : Gives escape (tail ++ 0x22 :: rest) c mid) :
    ∃ body, StringBody body ∧ mid = body ++ 0x22 :: rest ∧
      ∀ more, Gives escape (tail ++ 0x22 :: more) c (body ++ 0x22 :: more) := by
  obtain ⟨e, after, htail, ⟨hshort, rfl⟩ | ⟨rfl, hunicode⟩⟩ := gives_escape.mp hc
  -- the string and the reader agree on which form of escape this is
  · cases h with
    | plain hb _ => exact absurd rfl hb.2.1
    | @short e' body _ hbody =>
        cases htail
        exact ⟨body, hbody, rfl, fun more => gives_escape.mpr ⟨_, _, rfl, .inl ⟨hshort, rfl⟩⟩⟩
    | hex _ _ =>
        cases htail
        cases hshort
  cases h with
  | plain hb _ => exact absurd rfl hb.2.1
  | short he _ =>
      cases htail
      cases he
  | @hex w x y z body _ hbody =>
      cases htail
      obtain ⟨n, last, hn, hcase⟩ := gives_unicodeEscape.mp hunicode
      obtain ⟨_, _, _, _, hdigits, hvalue⟩ := gives_hexEscape.mp hn
      cases hdigits
      have hhex : ∀ more, Gives hexEscape (w :: x :: y :: z :: (body ++ 0x22 :: more)) n
          (body ++ 0x22 :: more) :=
        fun more => gives_hexEscape.mpr ⟨_, _, _, _, rfl, hvalue⟩
      rcases hcase with ⟨hsingle, hchar, rfl⟩ | ⟨hfirst, m, behind, hlast, hm, hsecond, hchar⟩
      · refine ⟨body, hbody, rfl, fun more => gives_escape.mpr ⟨_, _, rfl, .inr ⟨rfl, ?_⟩⟩⟩
        exact gives_unicodeEscape.mpr ⟨n, _, hhex more, .inl ⟨hsingle, hchar, rfl⟩⟩
      · -- the second half is an escape of the string as well
        obtain ⟨w', x', y', z', body', hbody', rfl⟩ := exists_of_hexMark hbody hlast
        cases hlast
        obtain ⟨_, _, _, _, hdigits', hvalue'⟩ := gives_hexEscape.mp hm
        cases hdigits'
        refine ⟨body', hbody', rfl, fun more => gives_escape.mpr ⟨_, _, rfl, .inr ⟨rfl, ?_⟩⟩⟩
        exact gives_unicodeEscape.mpr ⟨n, _, hhex more, .inr ⟨hfirst, m, _, rfl,
          gives_hexEscape.mpr ⟨_, _, _, _, rfl, hvalue'⟩, hsecond, hchar⟩⟩

/-- The loop over the octets of a string ends with the string. -/
theorem runs_of_stringBody {taken : Bytes} {s : String} (h : StringBody body)
    (hrun : Runs stringStep taken (body ++ 0x22 :: rest) s mid) :
    mid = rest ∧ ∀ more, Runs stringStep taken (body ++ 0x22 :: more) s more := by
  generalize hinput : body ++ 0x22 :: rest = input at hrun
  -- the induction is on the run; the body shrinks with it, by one piece a step
  induction hrun generalizing body with
  | @done taken input mid s hstep =>
      obtain ⟨rfl, htext⟩ := stringStep_inr hstep
      have hquote : ∀ more, Gives (stringStep taken) (0x22 :: more) (.inr s) more := by
        intro more
        refine gives_bind_octet.mpr ?_
        dsimp only
        rw [if_pos rfl, htext]
        exact gives_pure.mpr ⟨rfl, rfl⟩
      cases h with
      | nil =>
          cases hinput
          exact ⟨rfl, fun more => .done (hquote more)⟩
      | plain hb _ =>
          cases hinput
          exact absurd rfl hb.1
      | short _ _ | hex _ _ => cases hinput
  | @more taken taken' input after mid s hstep _ ih =>
      obtain ⟨b, hb, hplain, rfl⟩ | ⟨escaped, c, hescape, hc, rfl⟩ := stringStep_inl.mp hstep
      · cases h with
        | nil =>
            cases hinput.trans hplain
            exact absurd rfl hb.1
        | @plain b' tail _ htail =>
            cases hinput.trans hplain
            obtain ⟨rfl, hruns⟩ := ih htail rfl
            exact ⟨rfl, fun more => runs_plain hb (hruns more)⟩
        | short _ _ | hex _ _ =>
            cases hinput.trans hplain
            exact absurd rfl hb.2.1
      · have hbackslash : ∃ tail, body = 0x5C :: tail ∧ escaped = tail ++ 0x22 :: rest := by
          cases body with
          | nil => cases hinput.trans hescape
          | cons b tail =>
              cases hinput.trans hescape
              exact ⟨tail, rfl, rfl⟩
        obtain ⟨tail, rfl, rfl⟩ := hbackslash
        obtain ⟨body', hbody', rfl, hread⟩ := exists_of_escape h hc
        obtain ⟨rfl, hruns⟩ := ih hbody' rfl
        exact ⟨rfl, fun more => runs_escape _ (hread more) (hruns more)⟩

end InText

theorem gives_string_cons {input rest : Bytes} {s : String} :
    Gives string (0x22 :: input) s rest ↔ Runs stringStep [] input s rest := by
  unfold string
  rw [gives_bind_skip]
  exact gives_repeated stringStep_advances

/-- **A string is read in a text as it is read by itself.** -/
theorem gives_string_iff {w rest rest' : Bytes} {s : String} (hw : IsString w) :
    Gives string (w ++ rest) s rest' ↔ rest' = rest ∧ Gives string w s [] := by
  obtain ⟨body, hbody, rfl⟩ := hw
  have happend : 0x22 :: (body ++ [0x22]) ++ rest = 0x22 :: (body ++ 0x22 :: rest) := by simp
  rw [happend, gives_string_cons, gives_string_cons]
  constructor
  · intro h
    obtain ⟨rfl, hruns⟩ := runs_of_stringBody hbody h
    exact ⟨rfl, hruns []⟩
  · rintro ⟨rfl, h⟩
    exact (runs_of_stringBody hbody h).2 rest'

/-! ### Where a string is read -/

theorem isHexDigit_of_gives_hexEscape {input rest : Bytes} {n : Nat} (h : Gives hexEscape input n rest) :
    ∃ w x y z, input = w :: x :: y :: z :: rest ∧
      ∀ b ∈ [w, x, y, z], Text.IsHexDigit (Char.ofUInt8 b) := by
  obtain ⟨w, x, y, z, hinput, hn⟩ := gives_hexEscape.mp h
  have hdigits := Text.ofHex_isSome.mp (Option.isSome_of_eq_some hn)
  exact ⟨w, x, y, z, hinput, List.forall_mem_map.mp hdigits⟩

/-- Where an escape is read one or two of them stand, whole. -/
theorem exists_of_gives_escape {tail rest : Bytes} {c : Char} (h : Gives escape tail c rest) :
    ∃ w, tail = w ++ rest ∧ ∀ {body}, StringBody body → StringBody (0x5C :: (w ++ body)) := by
  obtain ⟨e, tail, rfl, ⟨hshort, rfl⟩ | ⟨rfl, hunicode⟩⟩ := gives_escape.mp h
  · exact ⟨[e], rfl, .short (Option.isSome_of_eq_some hshort)⟩
  obtain ⟨n, mid, hn, ⟨_, _, rfl⟩ | ⟨_, m, tail, rfl, hm, _, _⟩⟩ := gives_unicodeEscape.mp hunicode
  · obtain ⟨w, x, y, z, rfl, hdigits⟩ := isHexDigit_of_gives_hexEscape hn
    exact ⟨[0x75, w, x, y, z], rfl, .hex hdigits⟩
  · obtain ⟨w, x, y, z, rfl, hdigits⟩ := isHexDigit_of_gives_hexEscape hn
    obtain ⟨w', x', y', z', rfl, hdigits'⟩ := isHexDigit_of_gives_hexEscape hm
    exact ⟨[0x75, w, x, y, z, 0x5C, 0x75, w', x', y', z'], rfl, fun hbody =>
      .hex hdigits (.hex hdigits' hbody)⟩

theorem exists_stringBody_of_runs {taken input rest : Bytes} {s : String}
    (h : Runs stringStep taken input s rest) :
    ∃ body, StringBody body ∧ input = body ++ 0x22 :: rest := by
  induction h with
  | done hstep => exact ⟨[], .nil, (stringStep_inr hstep).1⟩
  | more hstep _ ih =>
      obtain ⟨body, hbody, rfl⟩ := ih
      obtain ⟨b, hb, rfl, _⟩ | ⟨tail, c, rfl, hc, _⟩ := stringStep_inl.mp hstep
      · exact ⟨b :: body, .plain hb hbody, rfl⟩
      · obtain ⟨w, rfl, hw⟩ := exists_of_gives_escape hc
        exact ⟨0x5C :: (w ++ body), hw hbody, by rw [List.cons_append, List.append_assoc]⟩

/-- Where a string is read a string stands. -/
theorem exists_isString {tail rest : Bytes} {s : String} (h : Gives string (0x22 :: tail) s rest) :
    ∃ w, IsString w ∧ 0x22 :: tail = w ++ rest := by
  obtain ⟨body, hbody, rfl⟩ := exists_stringBody_of_runs (gives_string_cons.mp h)
  exact ⟨_, ⟨body, hbody, rfl⟩, by simp⟩

theorem exists_isNumeral {input rest : Bytes} {n : Numeral}
    (h : Gives (numeral .endOfValue) input n rest) : ∃ w, IsNumeral w ∧ input = w ++ rest := by
  obtain ⟨w, hinput, hw⟩ := detaches_numeral .endOfValue h
  have halone := hw [] (.inl ends_nil)
  rw [List.append_nil] at halone
  exact ⟨w, ⟨n, halone⟩, hinput⟩

end Reader

/-! ## Tokens in a text -/

section Tokens

variable {w input rest rest' : Bytes} {u v : Value}

/-- A token begins with an octet that begins a value. -/
theorem IsToken.head (h : IsToken w) : ∃ b tail k, w = b :: tail ∧ kindOf b = some k := by
  cases h with
  | null => exact ⟨_, _, _, rfl, rfl⟩
  | truth b => cases b <;> exact ⟨_, _, _, rfl, rfl⟩
  | text hw =>
      obtain ⟨body, _, rfl⟩ := hw
      exact ⟨_, _, _, rfl, rfl⟩
  | number hw =>
      obtain ⟨n, hn⟩ := hw
      obtain ⟨b, tail, rfl, hb⟩ := numeral_head hn
      exact ⟨b, tail, _, rfl, if_pos hb⟩

theorem IsToken.dropWhile (h : IsToken w) : w.dropWhile isBlank = w := by
  obtain ⟨b, tail, k, rfl, hb⟩ := h.head
  rw [List.dropWhile_cons, isBlank_of_kindOf hb]
  rfl

theorem spells_string (hw : IsString w) (hinput : input.dropWhile isBlank = w ++ rest) :
    Spells input (.value v) rest' ↔ rest' = rest ∧ ∃ s, v = .text s ∧ Gives string w s [] := by
  obtain ⟨tail, htail⟩ := hw.head rest
  constructor
  · intro h
    have hkind := h.kind_of_cons (hinput.trans htail)
    cases v with
    | text s =>
        cases h with
        | text hinput' hs =>
            rw [← hinput', hinput] at hs
            obtain ⟨hrest, hs⟩ := (gives_string_iff hw).mp hs
            exact ⟨hrest, s, rfl, hs⟩
    | _ => cases hkind
  · rintro ⟨rfl, s, rfl, hs⟩
    have hread : Gives string (w ++ rest') s rest' := (gives_string_iff hw).mpr ⟨rfl, hs⟩
    rw [htail] at hread
    exact .text (hinput.trans htail) hread

theorem spells_numeral {n : Numeral} (hw : Gives (numeral .endOfValue) w n [])
    (hinput : input.dropWhile isBlank = w ++ rest) (hrest : Ends rest) :
    Spells input (.value v) rest' ↔ rest' = rest ∧ ∃ k, v = .number k ∧ n.number = .ok k := by
  have hread : Gives (numeral .endOfValue) (w ++ rest) n rest := extends_numeral _ hw hrest
  constructor
  · intro h
    obtain ⟨b, tail, htail, hb⟩ := numeral_head hread
    obtain ⟨k, rfl, hk⟩ := h.number_of_cons (hinput.trans htail) hb
    rw [← htail] at hk
    obtain ⟨n', hn', hvalue⟩ := gives_number.mp hk
    obtain ⟨rfl, rfl⟩ := hread.eq hn'
    exact ⟨rfl, k, rfl, hvalue⟩
  · rintro ⟨rfl, k, rfl, hk⟩
    exact .number (hinput ▸ hread) hk

/-- A word has one value. -/
theorem spells_word (hword : ∀ {input rest : Bytes}, input.dropWhile isBlank = w ++ rest →
      Spells input (.value u) rest) (hw : w.dropWhile isBlank = w)
    (hinput : input.dropWhile isBlank = w ++ rest) :
    Spells input (.value v) rest' ↔ rest' = rest ∧ Spells w (.value v) [] := by
  have hread := hword hinput
  have halone : Spells w (.value u) [] := hword (hw.trans (List.append_nil w).symm)
  constructor
  · intro h
    obtain ⟨rfl, hrest⟩ := hread.eq h
    exact ⟨hrest, halone⟩
  · rintro ⟨rfl, h⟩
    rw [(halone.eq h).1]
    exact hread

/-- **A token is read in a text as it is read by itself**, and the text goes on behind it. -/
theorem spells_token (hw : IsToken w) (hinput : input.dropWhile isBlank = w ++ rest)
    (hrest : IsNumeral w → Ends rest) :
    Spells input (.value v) rest' ↔ rest' = rest ∧ Spells w (.value v) [] := by
  have halone : w.dropWhile isBlank = w ++ [] := hw.dropWhile.trans (List.append_nil w).symm
  cases hw with
  | null => exact spells_word .null rfl hinput
  | truth b => exact spells_word .truth (IsToken.truth b).dropWhile hinput
  | text hw =>
      rw [spells_string hw hinput, spells_string hw halone]
      simp only [true_and]
  | number hw =>
      obtain ⟨n, hn⟩ := hw
      rw [spells_numeral hn hinput (hrest ⟨n, hn⟩), spells_numeral hn halone ends_nil]
      simp only [true_and]

/-- A token is no array and no object. -/
theorem IsToken.settled (hw : IsToken w) (h : Spells w (.value v) []) : v.settled = v ∧ v.depth = 0 := by
  have halone : w.dropWhile isBlank = w ++ [] := hw.dropWhile.trans (List.append_nil w).symm
  cases hw with
  | null =>
      have hnull : Spells (octets "null") (.value .null) [] := .null halone
      obtain ⟨rfl, _⟩ := hnull.eq h
      exact ⟨rfl, rfl⟩
  | truth b =>
      obtain ⟨rfl, _⟩ := (Spells.truth halone).eq h
      exact ⟨rfl, rfl⟩
  | text hw =>
      obtain ⟨_, s, rfl, _⟩ := (spells_string hw halone).mp h
      exact ⟨rfl, rfl⟩
  | number hw =>
      obtain ⟨n, hn⟩ := hw
      obtain ⟨_, k, rfl, _⟩ := (spells_numeral hn halone ends_nil).mp h
      exact ⟨rfl, rfl⟩

end Tokens

end CrashCourier.Json
