import CrashCourier.Proofs.Json.Draft

/-!
# Drafts written out

A draft is written with any blanks in front of its tokens, the same in front of each, and the text is
that of the draft (`draftOf_text`). Without blanks, the draft of a value is the value as it is written
(`Value.text_draft`).
-/

namespace CrashCourier.Json

open Reader

mutual

/-- The text of a draft, with blanks in front of each token. -/
def Draft.text (blank : Bytes) : Draft → Bytes
  | .token w => blank ++ w
  | .list ds => blank ++ 0x5B :: textItems blank true ds
  | .object ms => blank ++ 0x7B :: textMembers blank true ms

/-- What is left of an array, its closing bracket included. -/
def textItems (blank : Bytes) : (first : Bool) → List Draft → Bytes
  | _, [] => blank ++ [0x5D]
  | first, d :: ds =>
    (if first then [] else blank ++ [0x2C]) ++ (d.text blank ++ textItems blank false ds)

/-- What is left of an object, its closing brace included. -/
def textMembers (blank : Bytes) : (first : Bool) → List (Bytes × Draft) → Bytes
  | _, [] => blank ++ [0x7D]
  | first, (key, d) :: ms =>
    (if first then [] else blank ++ [0x2C]) ++
      (blank ++ key ++ (blank ++ 0x3A :: (d.text blank ++ textMembers blank false ms)))

end

/-- Its tokens are tokens. -/
inductive Draft.Formed : Draft → Prop
  | token {w : Bytes} : IsToken w → Draft.Formed (.token w)
  | list {ds : List Draft} : (∀ d ∈ ds, Draft.Formed d) → Draft.Formed (.list ds)
  | object {ms : List (Bytes × Draft)} :
    (∀ m ∈ ms, IsString m.1) → (∀ m ∈ ms, Draft.Formed m.2) → Draft.Formed (.object ms)

section Text

variable {blank : Bytes}

theorem dropWhile_blank (h : Blank blank) (bs : Bytes) :
    (blank ++ bs).dropWhile isBlank = bs.dropWhile isBlank := by
  rw [List.dropWhile_append, show blank.dropWhile isBlank = [] from h]
  rfl

theorem dropWhile_blank_cons (h : Blank blank) {b : UInt8} (hb : isBlank b = false) (bs : Bytes) :
    (blank ++ b :: bs).dropWhile isBlank = b :: bs := by
  rw [dropWhile_blank h, List.dropWhile_cons, hb]
  rfl

/-- Blanks end a numeral, and so do commas and brackets that close. -/
theorem ends_blank (h : Blank blank) {b : UInt8} (hb : b = 0x2C ∨ b = 0x5D ∨ b = 0x7D)
    (bs : Bytes) : Ends (blank ++ b :: bs) := by
  have hmark : isBlank b = false := by rcases hb with rfl | rfl | rfl <;> rfl
  refine ends_of_dropWhile ?_
  rw [dropWhile_blank_cons h hmark]
  exact ends_cons hb

theorem ends_textItems (h : Blank blank) (ds : List Draft) (rest : Bytes) :
    Ends (textItems blank false ds ++ rest) := by
  cases ds with
  | nil =>
      rw [textItems, List.append_assoc]
      exact ends_blank h (.inr (.inl rfl)) _
  | cons d ds =>
      rw [textItems, if_neg Bool.false_ne_true, List.append_assoc, List.append_assoc]
      exact ends_blank h (.inl rfl) _

theorem ends_textMembers (h : Blank blank) (ms : List (Bytes × Draft)) (rest : Bytes) :
    Ends (textMembers blank false ms ++ rest) := by
  cases ms with
  | nil =>
      rw [textMembers, List.append_assoc]
      exact ends_blank h (.inr (.inr rfl)) _
  | cons m ms =>
      rw [textMembers, if_neg Bool.false_ne_true, List.append_assoc, List.append_assoc]
      exact ends_blank h (.inl rfl) _

/-- What stands in front of an item or a member. -/
theorem separated_blank (h : Blank blank) (first : Bool) (bs : Bytes) :
    Separated first ((if first then [] else blank ++ [0x2C]) ++ bs) bs := by
  cases first with
  | true => rfl
  | false =>
      show ((blank ++ [0x2C]) ++ bs).dropWhile isBlank = 0x2C :: bs
      rw [List.append_assoc]
      exact dropWhile_blank_cons h (by decide) bs

/-- The text of an array goes on as its items do. -/
theorem follows_textItems (hblank : Blank blank) (first : Bool) {ds : List Draft}
    (hds : ∀ d ∈ ds, ∀ rest, Ends rest → Follows (d.text blank ++ rest) (.value d) rest)
    (rest : Bytes) : Follows (textItems blank first ds ++ rest) (.items first ds) rest := by
  induction ds generalizing first with
  | nil =>
      rw [textItems, List.append_assoc]
      exact .endOfList (dropWhile_blank_cons hblank (by decide) rest)
  | cons d ds ih =>
      obtain ⟨hd, hds⟩ := List.forall_mem_cons.mp hds
      rw [textItems, List.append_assoc, List.append_assoc]
      exact .item (separated_blank hblank first _) (hd _ (ends_textItems hblank ds rest))
        (ih false hds)

theorem follows_textMembers (hblank : Blank blank) (first : Bool) {ms : List (Bytes × Draft)}
    (hkeys : ∀ m ∈ ms, IsString m.1)
    (hms : ∀ m ∈ ms, ∀ rest, Ends rest → Follows (m.2.text blank ++ rest) (.value m.2) rest)
    (rest : Bytes) : Follows (textMembers blank first ms ++ rest) (.members first ms) rest := by
  induction ms generalizing first with
  | nil =>
      rw [textMembers, List.append_assoc]
      exact .endOfObject (dropWhile_blank_cons hblank (by decide) rest)
  | cons m ms ih =>
      obtain ⟨key, d⟩ := m
      obtain ⟨hkey, hkeys⟩ := List.forall_mem_cons.mp hkeys
      obtain ⟨hd, hms⟩ := List.forall_mem_cons.mp hms
      have hquote : ∀ after, (blank ++ key ++ after).dropWhile isBlank = key ++ after := by
        intro after
        obtain ⟨body, _, rfl⟩ := hkey
        rw [List.append_assoc]
        exact dropWhile_blank_cons hblank (by decide) _
      rw [textMembers, List.append_assoc, List.append_assoc]
      refine .member (separated_blank hblank first _) hkey (hquote _) ?_
        (hd _ (ends_textMembers hblank ms rest)) (ih false hkeys hms)
      rw [List.append_assoc, List.cons_append, List.append_assoc]
      exact dropWhile_blank_cons hblank (by decide) _

theorem Draft.Formed.follows_text {d : Draft} (hd : d.Formed) (hblank : Blank blank) {rest : Bytes}
    (hrest : Ends rest) : Follows (d.text blank ++ rest) (.value d) rest := by
  induction d using Draft.memRec generalizing rest with
  | token w =>
      cases hd with
      | token hw =>
          refine .token hw ?_ fun _ => hrest
          obtain ⟨b, tail, _, rfl, hb⟩ := hw.head
          rw [Draft.text, List.append_assoc]
          exact dropWhile_blank_cons hblank (isBlank_of_kindOf hb) _
  | list ds ih =>
      cases hd with
      | list hds =>
          rw [Draft.text, List.append_assoc]
          refine .list (dropWhile_blank_cons hblank (by decide) _) ?_
          exact follows_textItems hblank true (fun d hd rest => ih d hd (hds d hd)) rest
  | object ms ih =>
      cases hd with
      | object hkeys hms =>
          rw [Draft.text, List.append_assoc]
          refine .object (dropWhile_blank_cons hblank (by decide) _) ?_
          exact follows_textMembers hblank true hkeys (fun m hm rest => ih m hm (hms m hm)) rest

/-- **A text that is written of a draft is that of the draft**, whatever the blanks. -/
theorem draftOf_text {d : Draft} (hd : d.Formed) (hblank : Blank blank) : DraftOf (d.text blank) d := by
  refine ⟨[], ?_, rfl⟩
  rw [← List.append_nil (d.text blank)]
  exact hd.follows_text hblank ends_nil

end Text

/-! ## Values as they are written -/

theorem StringBody.append {a b : Bytes} (ha : StringBody a) (hb : StringBody b) :
    StringBody (a ++ b) := by
  induction ha with
  | nil => exact hb
  | plain hplain _ ih => exact .plain hplain ih
  | short he _ ih => exact .short he ih
  | hex hdigits _ ih => exact .hex hdigits ih

theorem stringBody_of_plain {bs : Bytes} (h : ∀ b ∈ bs, IsPlain b) : StringBody bs := by
  induction bs with
  | nil => exact .nil
  | cons b bs ih =>
      obtain ⟨hb, hbs⟩ := List.forall_mem_cons.mp h
      exact .plain hb (ih hbs)

theorem stringBody_escapeChar (c : Char) : StringBody (escapeChar c) := by
  unfold escapeChar
  split
  case h_8 hquote hbackslash _ _ _ _ _ =>
    split
    · next hcontrol =>
        obtain ⟨w, x, y, z, hwritten, hhex⟩ := hex_control hcontrol
        rw [hwritten]
        have hsome : (Text.ofHex? ([w, x, y, z].map Char.ofUInt8)).isSome := by
          rw [hhex]
          rfl
        have hdigits := Text.ofHex_isSome.mp hsome
        exact .hex (fun b hb => hdigits _ (List.mem_map_of_mem hb)) .nil
    · next hcontrol =>
        exact stringBody_of_plain fun b => isPlain_of_mem_encodeChar hquote hbackslash hcontrol
  all_goals exact .short rfl .nil

/-- **A string that is written is a token.** -/
theorem isString_writeString (s : String) : IsString (writeString s) := by
  refine ⟨s.toList.flatMap escapeChar, ?_, rfl⟩
  generalize s.toList = cs
  induction cs with
  | nil => exact .nil
  | cons c cs ih =>
      rw [List.flatMap_cons]
      exact (stringBody_escapeChar c).append ih

theorem gives_writeString (s : String) : Gives string (writeString s) s [] := by
  have h := gives_string_write s []
  rwa [List.append_nil] at h

theorem isNumeral_write (n : Number) : IsNumeral n.write := by
  have hnumeral : ∀ {k : Number}, Gives number (n.write ++ []) k [] → IsNumeral n.write := by
    intro k h
    rw [List.append_nil] at h
    obtain ⟨m, hm, _⟩ := gives_number.mp h
    exact ⟨m, hm⟩
  cases n with
  | natural n => exact hnumeral (gives_number_natural n ends_nil)
  | negative n => exact hnumeral (gives_number_negative n ends_nil)
  | real x => exact ⟨_, x.gives_numeralOf⟩

mutual

/-- The tokens of a value as they are written. -/
def Value.draft : Value → Draft
  | .list vs => .list (draftItems vs)
  | .object ms => .object (draftMembers ms)
  | .null => .token Value.null.write
  | .truth b => .token (Value.truth b).write
  | .number n => .token (Value.number n).write
  | .text s => .token (Value.text s).write

def draftItems : List Value → List Draft
  | [] => []
  | v :: vs => v.draft :: draftItems vs

def draftMembers : List (String × Value) → List (Bytes × Draft)
  | [] => []
  | (key, v) :: ms => (writeString key, v.draft) :: draftMembers ms

end

theorem draftItems_eq_map (vs : List Value) : draftItems vs = vs.map Value.draft := by
  induction vs with
  | nil => rfl
  | cons v vs ih => rw [draftItems, ih, List.map_cons]

theorem draftMembers_eq_map (ms : List (String × Value)) :
    draftMembers ms = ms.map fun m => (writeString m.1, m.2.draft) := by
  induction ms with
  | nil => rfl
  | cons m ms ih => rw [draftMembers, ih, List.map_cons]

theorem Value.draft_of_scalar {v : Value} (hlist : ∀ vs, v ≠ .list vs)
    (hobject : ∀ ms, v ≠ .object ms) : v.draft = .token v.write ∧ IsToken v.write := by
  cases v with
  | null => exact ⟨rfl, .null⟩
  | truth b => exact ⟨rfl, .truth b⟩
  | number n => exact ⟨rfl, .number (isNumeral_write n)⟩
  | text s => exact ⟨rfl, .text (isString_writeString s)⟩
  | list vs => exact absurd rfl (hlist vs)
  | object ms => exact absurd rfl (hobject ms)

theorem Value.formed_draft (v : Value) : v.draft.Formed := by
  induction v using Value.memRec with
  | scalar v hlist hobject =>
      obtain ⟨hdraft, htoken⟩ := draft_of_scalar hlist hobject
      rw [hdraft]
      exact .token htoken
  | list vs ih =>
      rw [draft, draftItems_eq_map]
      exact .list (List.forall_mem_map.mpr ih)
  | object ms ih =>
      rw [draft, draftMembers_eq_map]
      exact .object (List.forall_mem_map.mpr fun m _ => isString_writeString m.1)
        (List.forall_mem_map.mpr ih)

theorem textItems_nil (first : Bool) (ds : List Draft) :
    textItems [] first ds = joined first (ds.map (Draft.text [])) ++ [0x5D] := by
  induction ds generalizing first with
  | nil =>
      rw [List.map_nil, joined_nil]
      rfl
  | cons d ds ih =>
      rw [textItems, ih false, List.map_cons]
      cases first with
      | true =>
          show [] ++ (d.text [] ++ (following _ ++ [0x5D])) = List.intercalate [0x2C] _ ++ [0x5D]
          rw [intercalate_cons, List.nil_append, List.append_assoc]
      | false =>
          show [0x2C] ++ (d.text [] ++ (following _ ++ [0x5D])) = following _ ++ [0x5D]
          rw [following_cons, List.append_assoc]
          rfl

theorem textMembers_nil (first : Bool) (ms : List (Bytes × Draft)) :
    textMembers [] first ms =
      joined first (ms.map fun m => m.1 ++ 0x3A :: m.2.text []) ++ [0x7D] := by
  induction ms generalizing first with
  | nil =>
      rw [List.map_nil, joined_nil]
      rfl
  | cons m ms ih =>
      obtain ⟨key, d⟩ := m
      rw [textMembers, ih false, List.map_cons]
      cases first with
      | true =>
          show key ++ (0x3A :: (d.text [] ++ (following _ ++ [0x7D]))) =
            List.intercalate [0x2C] _ ++ [0x7D]
          rw [intercalate_cons]
          simp only [List.append_assoc, List.cons_append]
      | false =>
          show 0x2C :: (key ++ (0x3A :: (d.text [] ++ (following _ ++ [0x7D])))) =
            following _ ++ [0x7D]
          rw [following_cons]
          simp only [List.append_assoc, List.cons_append]

/-- **A value is written as its draft is without blanks.** -/
theorem Value.text_draft (v : Value) : v.draft.text [] = v.write := by
  induction v using Value.memRec with
  | scalar v hlist hobject =>
      rw [(draft_of_scalar hlist hobject).1]
      rfl
  | list vs ih =>
      have hitems : (vs.map draft).map (Draft.text []) = writeItems vs := by
        rw [List.map_map, writeItems_eq_map]
        exact List.map_congr_left ih
      rw [draft, draftItems_eq_map, Draft.text, textItems_nil, hitems]
      rfl
  | object ms ih =>
      have hmembers : (ms.map fun m => (writeString m.1, m.2.draft)).map
          (fun m => m.1 ++ 0x3A :: m.2.text []) = writeMembers ms := by
        rw [List.map_map, writeMembers_eq_map]
        refine List.map_congr_left fun m hm => ?_
        show writeString m.1 ++ 0x3A :: m.2.draft.text [] = writeMember m.1 m.2.write
        rw [ih m hm, writeMember]
      rw [draft, draftMembers_eq_map, Draft.text, textMembers_nil, hmembers]
      rfl

theorem draftOf_write (v : Value) : DraftOf v.write v.draft := by
  rw [← v.text_draft]
  exact draftOf_text v.formed_draft rfl

/-- Without binary64 numbers a value is what its tokens mean. -/
theorem Value.means_draft {v : Value} (h : v.reals = []) : v.draft.Means v := by
  have hspells := spells_write_of_reals_nil h ends_nil
  rw [List.append_nil] at hspells
  exact (textOf_iff_means (draftOf_write v)).mp ⟨[], hspells, rfl⟩

/-- A value that repeats no key is written so. -/
theorem Value.keysDiffer_draft {v : Value} (h : v.settled = v) : v.draft.KeysDiffer := by
  induction v using Value.memRec with
  | scalar v hlist hobject =>
      rw [(draft_of_scalar hlist hobject).1]
      exact .token _
  | list vs ih =>
      rw [draft, draftItems_eq_map]
      exact .list (List.forall_mem_map.mpr fun v hv => ih v hv (settled_of_list h v hv))
  | object ms ih =>
      obtain ⟨hkeys, hms⟩ := Members.settled_of_object h
      rw [draft, draftMembers_eq_map]
      refine .object ?_ (List.forall_mem_map.mpr fun m hm => ih m hm (hms m hm))
      rw [List.map_map, List.pairwise_map]
      refine (List.pairwise_map.mp hkeys).imp fun {m n} hne s hm hn => hne ?_
      exact ((gives_writeString m.1).eq hm).1.symm.trans ((gives_writeString n.1).eq hn).1

/-! ## Members in reverse -/

mutual

/-- The draft with the members of each object in reverse. -/
def Draft.reversed : Draft → Draft
  | .token w => .token w
  | .list ds => .list (reversedItems ds)
  | .object ms => .object (reversedMembers ms).reverse

def reversedItems : List Draft → List Draft
  | [] => []
  | d :: ds => d.reversed :: reversedItems ds

def reversedMembers : List (Bytes × Draft) → List (Bytes × Draft)
  | [] => []
  | (key, d) :: ms => (key, d.reversed) :: reversedMembers ms

end

theorem Draft.rearranged_reversed (d : Draft) : d.Rearranged d.reversed := by
  induction d using Draft.memRec with
  | token w => exact .token w
  | list ds ih =>
      refine .list ?_
      induction ds with
      | nil => exact .nil
      | cons d ds ihds =>
          obtain ⟨hd, hds⟩ := List.forall_mem_cons.mp ih
          exact .cons hd (ihds hds)
  | object ms ih =>
      refine .object ?_ (List.reverse_perm _).symm
      induction ms with
      | nil => exact .nil
      | cons m ms ihms =>
          obtain ⟨hm, hms⟩ := List.forall_mem_cons.mp ih
          exact .cons hm (ihms hms)

/-- Another order has the same tokens. -/
theorem Draft.Rearranged.formed {d e : Draft} (h : d.Rearranged e) (hd : d.Formed) : e.Formed := by
  induction d using Draft.memRec generalizing e with
  | token w =>
      cases h
      exact hd
  | list ds ih =>
      cases h with
      | list hes =>
          cases hd with
          | list hds =>
              refine .list fun e he => ?_
              obtain ⟨d, hd, hde⟩ := exists_mem_of_forall₂ hes.flip he
              exact ih d hd hde (hds d hd)
  | object ms ih =>
      cases h with
      | @object _ _ ns hns hperm =>
          cases hd with
          | object hkeys hms =>
              have hmembers : ∀ n ∈ ns, ∃ m ∈ ms, m.1 = n.1 ∧ m.2.Rearranged n.2 := fun n hn =>
                exists_mem_of_forall₂ (rearrangedMembers_iff.mp hns).flip (hperm.mem_iff.mpr hn)
              refine .object (fun n hn => ?_) fun n hn => ?_
              · obtain ⟨m, hm, hkey, _⟩ := hmembers n hn
                exact hkey ▸ hkeys m hm
              · obtain ⟨m, hm, _, hmn⟩ := hmembers n hn
                exact ih m hm hmn (hms m hm)

end CrashCourier.Json
