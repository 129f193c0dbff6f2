import CrashCourier.Proofs.Json.Taken

/-!
# Values that nobody wants

A reader that ignores a value takes every draft, also one that means nothing: it looks neither at the
range of a numeral nor at the characters of a string, and it goes to any depth (`takes_ignored`).

It keeps no tree, only which arrays and objects are open, the innermost first. What it does with a part of
a draft is to go on behind it with what is open around it, and so the induction is on the draft with
nothing said about what is open (`follows_ignored`).
-/

namespace CrashCourier.Json

namespace Reader

/-! ## Tokens -/

/-- One step of the loop over the octets of a string that is ignored. -/
def ignoredCharStep : Unit → Reader (Unit ⊕ Unit) := fun _ => do
  match ← octet? with
  | none => throw .endOfString
  | some b =>
    if b = 0x22 then return .inr ()
    else if b = 0x5C then
      match ← octet? with
      | none => throw .endOfString
      | some e =>
        if (escaped? (Char.ofUInt8 e)).isSome then return .inl ()
        else if Char.ofUInt8 e = 'u' then
          let _ ← hexEscape
          return .inl ()
        else throw .invalidEscape
    else if b < 0x20 then throw .controlCharacter
    else return .inl ()

theorem descends_stringBody {body : Bytes} (h : StringBody body) (rest : Bytes) :
    Descends ignoredCharStep () (body ++ 0x22 :: rest) () rest := by
  induction h with
  | nil =>
      exact .done (gives_bind_octet.mpr (gives_pure.mpr ⟨rfl, rfl⟩))
  | @plain b tail hb _ ih =>
      obtain ⟨hquote, hbackslash, hcontrol⟩ := hb
      refine .more (gives_bind_octet.mpr ?_)
        (Nat.lt_succ_self _) ih
      dsimp only
      rw [if_neg hquote, if_neg hbackslash, if_neg hcontrol]
      exact gives_pure.mpr ⟨rfl, rfl⟩
  | @short e tail he _ ih =>
      refine .more (gives_bind_octet.mpr ?_)
        (Nat.lt_succ_of_lt (Nat.lt_succ_self _)) ih
      refine gives_bind_octet.mpr ?_
      dsimp only
      rw [if_pos he]
      exact gives_pure.mpr ⟨rfl, rfl⟩
  | @hex w x y z tail hdigits _ ih =>
      -- the number of the digits is read and not looked at
      have hsome : (Text.ofHex? ([w, x, y, z].map Char.ofUInt8)).isSome :=
        Text.ofHex_isSome.mpr (List.forall_mem_map.mpr hdigits)
      obtain ⟨n, hn⟩ := Option.isSome_iff_exists.mp hsome
      refine .more (gives_bind_octet.mpr ?_) ?_ ih
      · refine gives_bind_octet.mpr ?_
        exact gives_bind.mpr ⟨n, _, gives_hexEscape.mpr ⟨_, _, _, _, rfl, hn⟩,
          gives_pure.mpr ⟨rfl, rfl⟩⟩
      · simp only [List.cons_append, List.length_cons]
        omega

theorem gives_ignoredString {body : Bytes} (h : StringBody body) (rest : Bytes) :
    Gives ignoredString (body ++ 0x22 :: rest) () rest :=
  gives_of_descends (descends_stringBody h rest)

/-- A numeral is the same numeral, whatever the fault would have been. -/
theorem gives_numeral_of {f g : Fault} {input rest : Bytes} {n : Numeral}
    (h : Gives (numeral f) input n rest) : Gives (numeral g) input n rest := by
  have hdigits : ∀ {input rest ds}, Gives (someDigits f) input ds rest →
      Gives (someDigits g) input ds rest := fun h => gives_someDigits.mpr (gives_someDigits.mp h)
  have hwhole : ∀ {input rest ds}, Gives (wholeDigits f) input ds rest →
      Gives (wholeDigits g) input ds rest := fun h =>
    gives_wholeDigits.mpr ((gives_wholeDigits.mp h).imp_left hdigits)
  have hfraction : ∀ {input rest r}, Gives (fraction f) input r rest →
      Gives (fraction g) input r rest := by
    intro input rest r h
    refine gives_fraction.mpr ((gives_fraction.mp h).imp_left ?_)
    rintro ⟨tail, ds, hinput, hds, hr⟩
    exact ⟨tail, ds, hinput, hdigits hds, hr⟩
  have hsigned : ∀ {input rest r}, Gives (signedDigits f) input r rest →
      Gives (signedDigits g) input r rest := by
    intro input rest r h
    obtain ⟨down, ds, hr, ⟨tail, hinput, hds⟩ | ⟨hdown, hds⟩⟩ := gives_signedDigits.mp h
    · exact gives_signedDigits.mpr ⟨down, ds, hr, .inl ⟨tail, hinput, hdigits hds⟩⟩
    · exact gives_signedDigits.mpr ⟨down, ds, hr, .inr ⟨hdown, hdigits hds⟩⟩
  have hpower : ∀ {input rest r}, Gives (power f) input r rest → Gives (power g) input r rest := by
    intro input rest r h
    refine gives_power.mpr ((gives_power.mp h).imp_left ?_)
    rintro ⟨b, tail, hinput, hb, hr⟩
    exact ⟨b, tail, hinput, hb, hsigned hr⟩
  have hunsigned : ∀ {negative input}, Gives (unsigned f negative) input n rest →
      Gives (unsigned g negative) input n rest := by
    intro negative input h
    obtain ⟨ds, mid, hds, h⟩ := gives_bind.mp h
    obtain ⟨r, after, hr, h⟩ := gives_bind.mp h
    obtain ⟨p, last, hp, h⟩ := gives_bind.mp h
    exact gives_bind.mpr ⟨ds, mid, hwhole hds, gives_bind.mpr ⟨r, after, hfraction hr,
      gives_bind.mpr ⟨p, last, hpower hp, h⟩⟩⟩
  refine gives_numeral.mpr ((gives_numeral.mp h).imp ?_ hunsigned)
  rintro ⟨tail, hinput, htail⟩
  exact ⟨tail, hinput, hunsigned htail⟩

section Start

variable {input rest tail : Bytes}

/-- A character that begins a number is none of those that begin anything else. -/
theorem gives_ignoredStart_number {b : UInt8} {n : Numeral}
    (hinput : input.dropWhile isBlank = b :: tail) (hb : startsNumber (Char.ofUInt8 b) = true)
    (hn : Gives (numeral .invalidNumber) (b :: tail) n rest) :
    Gives ignoredStart input none rest := by
  unfold ignoredStart
  refine (gives_bind_ahead hinput).mpr ?_
  generalize Char.ofUInt8 b = c at hb
  split
  case h_8 heq =>
    rw [← Option.some.inj heq, if_pos hb]
    exact gives_bind.mpr ⟨n, rest, hn, gives_pure.mpr ⟨rfl, rfl⟩⟩
  case h_1 => contradiction
  all_goals
    next heq =>
      rw [Option.some.inj heq] at hb
      exact absurd hb (by decide)

/-- A token is taken as a whole. -/
theorem gives_ignoredStart_token {w : Bytes} (hw : IsToken w)
    (hinput : input.dropWhile isBlank = w ++ rest) (hrest : IsNumeral w → Ends rest) :
    Gives ignoredStart input none rest := by
  cases hw with
  | null =>
      refine (gives_bind_ahead hinput).mpr ?_
      exact gives_bind.mpr ⟨(), rest, gives_word.mpr rfl, gives_pure.mpr ⟨rfl, rfl⟩⟩
  | truth b =>
      cases b with
      | true =>
          refine (gives_bind_ahead hinput).mpr ?_
          exact gives_bind.mpr ⟨(), rest, gives_word.mpr rfl, gives_pure.mpr ⟨rfl, rfl⟩⟩
      | false =>
          refine (gives_bind_ahead hinput).mpr ?_
          exact gives_bind.mpr ⟨(), rest, gives_word.mpr rfl, gives_pure.mpr ⟨rfl, rfl⟩⟩
  | text hw =>
      obtain ⟨body, hbody, rfl⟩ := hw
      have happend : 0x22 :: (body ++ [0x22]) ++ rest = 0x22 :: (body ++ 0x22 :: rest) := by simp
      rw [happend] at hinput
      refine (gives_bind_ahead hinput).mpr ?_
      refine gives_bind_skip.mpr ?_
      exact gives_bind.mpr ⟨(), rest, gives_ignoredString hbody rest, gives_pure.mpr ⟨rfl, rfl⟩⟩
  | number hw =>
      obtain ⟨n, hn⟩ := hw
      have hread : Gives (numeral .endOfValue) (w ++ rest) n rest :=
        extends_numeral _ hn (hrest ⟨n, hn⟩)
      obtain ⟨b, tail, htail, hb⟩ := numeral_head hread
      rw [htail] at hread hinput
      exact gives_ignoredStart_number hinput (startsNumber_of_head hb).2 (gives_numeral_of hread)

theorem gives_ignoredStart_list (hinput : input.dropWhile isBlank = 0x5B :: tail) :
    Gives ignoredStart input (some false) tail := by
  refine (gives_bind_ahead hinput).mpr ?_
  exact gives_bind_skip.mpr (gives_pure.mpr ⟨rfl, rfl⟩)

theorem gives_ignoredStart_object (hinput : input.dropWhile isBlank = 0x7B :: tail) :
    Gives ignoredStart input (some true) tail := by
  refine (gives_bind_ahead hinput).mpr ?_
  exact gives_bind_skip.mpr (gives_pure.mpr ⟨rfl, rfl⟩)

theorem gives_ignoredKey {key after : Bytes} (hkey : IsString key)
    (hinput : input.dropWhile isBlank = key ++ after)
    (hcolon : after.dropWhile isBlank = 0x3A :: rest) : Gives ignoredKey input () rest := by
  obtain ⟨body, hbody, rfl⟩ := hkey
  have happend : 0x22 :: (body ++ [0x22]) ++ after = 0x22 :: (body ++ 0x22 :: after) := by simp
  rw [happend] at hinput
  refine (gives_bind_ahead hinput).mpr ?_
  refine gives_bind_skip.mpr ?_
  exact gives_bind.mpr ⟨(), after, gives_ignoredString hbody after, gives_colon.mpr hcolon⟩

end Start

/-! ## What is open -/

/-- What is open once a value has begun. -/
def entered (object : Bool) (outer : List Bool) : Option Bool → Bool × List Bool
  | none => (true, object :: outer)
  | some inner => (false, inner :: object :: outer)

/-- Takes the beginning of a value inside an array or object, and in an object its key. -/
def ignoredNext (object : Bool) (outer : List Bool) : Reader ((Bool × List Bool) ⊕ Unit) := do
  if object then ignoredKey
  match ← ignoredStart with
  | none => return .inl (true, object :: outer)
  | some inner => return .inl (false, inner :: object :: outer)

section Steps

variable {object first : Bool} {outer : List Bool} {input mid rest tail : Bytes}

theorem gives_ahead_dropWhile {α : Type} {f : Option Char → Reader α} {a : α} :
    Gives (ahead >>= f) (input.dropWhile isBlank) a rest ↔ Gives (ahead >>= f) input a rest := by
  simp only [gives_bind, gives_ahead, List.dropWhile_idempotent]

theorem gives_ignoredNext_dropWhile {s : (Bool × List Bool) ⊕ Unit} :
    Gives (ignoredNext object outer) (input.dropWhile isBlank) s rest ↔
      Gives (ignoredNext object outer) input s rest := by
  cases object with
  | true =>
      refine gives_bind.trans (Iff.trans ?_ gives_bind.symm)
      exact exists_congr fun _ => exists_congr fun _ => and_congr_left' gives_ahead_dropWhile
  | false =>
      refine gives_bind.trans (Iff.trans ?_ gives_bind.symm)
      exact exists_congr fun _ => exists_congr fun _ => and_congr_left' gives_ahead_dropWhile

theorem gives_ignoredStep_close
    (hclose : input.dropWhile isBlank = (if object then 0x7D else 0x5D) :: rest) (comma : Bool) :
    Gives (ignoredStep (comma, object :: outer)) input (.inl (true, outer)) rest := by
  refine (gives_bind_ahead hclose).mpr ?_
  cases object with
  | true => exact gives_bind_skip.mpr (gives_pure.mpr ⟨rfl, rfl⟩)
  | false => exact gives_bind_skip.mpr (gives_pure.mpr ⟨rfl, rfl⟩)

/-- A step goes on behind the comma, or where none is due. -/
theorem gives_ignoredStep_next {b : UInt8} {s : (Bool × List Bool) ⊕ Unit}
    (hsep : Separated first input mid) (hmid : mid.dropWhile isBlank = b :: tail)
    (hb : b ≠ if object then 0x7D else 0x5D) (h : Gives (ignoredNext object outer) mid s rest) :
    Gives (ignoredStep (!first, object :: outer)) input s rest := by
  have hopen : ∀ {c : UInt8}, c ≠ (if object then 0x7D else 0x5D) →
      ¬ Char.ofUInt8 c = (if object then '\x7d' else ']') := by
    intro c hc heq
    cases object with
    | true => exact hc (ofUInt8_inj (b := 0x7D).mp heq)
    | false => exact hc (ofUInt8_inj (b := 0x5D).mp heq)
  cases first with
  | true =>
      -- the step has passed the blanks by then
      obtain rfl : mid = input := hsep
      rw [← gives_ignoredNext_dropWhile, hmid] at h
      refine (gives_bind_ahead hmid).mpr ?_
      dsimp only
      rw [if_neg (hopen hb)]
      exact h
  | false =>
      have hcomma : (0x2C : UInt8) ≠ if object then 0x7D else 0x5D := by cases object <;> decide
      refine (gives_bind_ahead hsep).mpr ?_
      dsimp only
      rw [if_neg (hopen hcomma)]
      exact gives_bind_skip.mpr h

theorem gives_ignoredNext_item {start : Option Bool} (h : Gives ignoredStart input start rest) :
    Gives (ignoredNext false outer) input (.inl (entered false outer start)) rest := by
  refine gives_bind.mpr ⟨start, rest, h, ?_⟩
  cases start with
  | none => exact gives_pure.mpr ⟨rfl, rfl⟩
  | some inner => exact gives_pure.mpr ⟨rfl, rfl⟩

theorem gives_ignoredNext_member {start : Option Bool} (hkey : Gives ignoredKey input () mid)
    (h : Gives ignoredStart mid start rest) :
    Gives (ignoredNext true outer) input (.inl (entered true outer start)) rest := by
  refine gives_bind.mpr ⟨(), mid, hkey, gives_bind.mpr ⟨start, rest, h, ?_⟩⟩
  cases start with
  | none => exact gives_pure.mpr ⟨rfl, rfl⟩
  | some inner => exact gives_pure.mpr ⟨rfl, rfl⟩

end Steps

end Reader

/-! ## Drafts -/

open Reader

namespace Follows

/-- What is open around a part goes on behind it. -/
def Ignored (input rest : Bytes) : Draft.Part → Prop
  | .value _ => Gives ignoredStart input none rest ∨
      ∃ inner mid, Gives ignoredStart input (some inner) mid ∧ mid.length < input.length ∧
        ∀ outer last, Descends ignoredStep (true, outer) rest () last →
          Descends ignoredStep (false, inner :: outer) mid () last
  | .items first _ => ∀ outer last, Descends ignoredStep (true, outer) rest () last →
      Descends ignoredStep (!first, false :: outer) input () last
  | .members first _ => ∀ outer last, Descends ignoredStep (true, outer) rest () last →
      Descends ignoredStep (!first, true :: outer) input () last

variable {input mid after rest last : Bytes} {d : Draft} {object : Bool} {outer : List Bool}

/-- A value is taken whatever is open around it. -/
theorem Ignored.descends (hignored : Ignored mid after (.value d)) (hd : Follows mid (.value d) after)
    {s : Bool × List Bool} (hlength : mid.length ≤ input.length)
    (hstep : ∀ {start rest}, Gives ignoredStart mid start rest →
      Gives (ignoredStep s) input (.inl (entered object outer start)) rest)
    (hafter : Descends ignoredStep (true, object :: outer) after () last) :
    Descends ignoredStep s input () last := by
  obtain hstart | ⟨inner, more, hstart, hmore, hinner⟩ := hignored
  · exact .more (hstep hstart) (Nat.lt_of_lt_of_le hd.length_lt hlength) hafter
  · exact .more (hstep hstart) (Nat.lt_of_lt_of_le hmore hlength) (hinner _ _ hafter)

theorem ignored {part : Draft.Part} (h : Follows input part rest) : Ignored input rest part := by
  -- what is open stays general, since it changes inside arrays and objects
  induction h with
  | token hw hinput hrest => exact .inl (gives_ignoredStart_token hw hinput hrest)
  | list hinput _ ih =>
      exact .inr ⟨false, _, gives_ignoredStart_list hinput, length_lt_of_dropWhile hinput, ih⟩
  | object hinput _ ih =>
      exact .inr ⟨true, _, gives_ignoredStart_object hinput, length_lt_of_dropWhile hinput, ih⟩
  | endOfList hclose | endOfObject hclose =>
      intro outer last hlast
      exact .more (gives_ignoredStep_close hclose _) (length_lt_of_dropWhile hclose) hlast
  | item hsep hd _ ihd ihds =>
      intro outer last hlast
      obtain ⟨b, tail, hmid, hb⟩ := hd.head
      refine ihd.descends hd hsep.length (fun hstart => ?_) (ihds _ _ hlast)
      exact gives_ignoredStep_next hsep hmid hb (gives_ignoredNext_item hstart)
  | @member input mid after more last rest key first d ms hsep hkey hmid hcolon hd _ ihd ihms =>
      intro outer behind hbehind
      obtain ⟨tail, hquote⟩ := hkey.head after
      refine ihd.descends hd (Nat.le_of_lt (length_lt_of_key hsep hmid hcolon)) (fun hstart => ?_)
        (ihms _ _ hbehind)
      exact gives_ignoredStep_next hsep (hmid.trans hquote) (by decide)
        (gives_ignoredNext_member (gives_ignoredKey hkey hmid hcolon) hstart)

end Follows

/-- **A reader that ignores a value takes every draft.** -/
theorem takes_ignored (d : Draft) : Takes ignored d () := by
  intro input rest h
  have hvalue : Follows.Ignored input rest (.value d) := h.ignored
  obtain hstart | ⟨inner, mid, hstart, _, hinner⟩ := hvalue
  · exact gives_bind.mpr ⟨none, rest, hstart, gives_pure.mpr ⟨rfl, rfl⟩⟩
  · have hend : Descends ignoredStep (true, []) rest () rest := .done (gives_pure.mpr ⟨rfl, rfl⟩)
    exact gives_bind.mpr ⟨some inner, mid, hstart, gives_of_descends (hinner [] rest hend)⟩

end CrashCourier.Json
