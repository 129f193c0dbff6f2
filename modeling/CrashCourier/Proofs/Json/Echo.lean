import CrashCourier.Proofs.Decimal.Reading
import CrashCourier.Proofs.Json.PrefixFree
import CrashCourier.Proofs.Json.Reals

/-!
# What a written value is read as

A written value is read as the same value with other numbers: each binary64 number comes back as what its
own text is read as, and everything else comes back as it was (`spells_write`). If there is a number whose
text is not read at all, then neither is the value.

The induction is on the value, and along its text. What stands between two commas begins with an octet that
says of which kind it is, so a text that is written of an array spells an array, item by item.
-/

namespace CrashCourier.Json

open Reader

/-! ## First octets -/

/-- The kinds of values. -/
inductive Kind where
  | null
  | truth
  | number
  | text
  | list
  | object

def Value.kind : Value → Kind
  | .null => .null
  | .truth _ => .truth
  | .number _ => .number
  | .text _ => .text
  | .list _ => .list
  | .object _ => .object

/-- The kind of value that begins with an octet. -/
def kindOf (b : UInt8) : Option Kind :=
  if b = 0x2D ∨ isDigit b = true then some .number
  else if b = 0x6E then some .null
  else if b = 0x74 ∨ b = 0x66 then some .truth
  else if b = 0x22 then some .text
  else if b = 0x5B then some .list
  else if b = 0x7B then some .object
  else none

theorem isBlank_of_kindOf {b : UInt8} {k : Kind} (h : kindOf b = some k) : isBlank b = false := by
  by_contra hblank
  rw [Bool.not_eq_false] at hblank
  unfold isBlank at hblank
  simp only [Bool.or_eq_true, beq_iff_eq] at hblank
  rcases hblank with ((rfl | rfl) | rfl) | rfl
  · cases h
  · cases h
  · cases h
  · cases h

/-- The first octet says of which kind the value is. -/
theorem Spells.kind {input rest : Bytes} {w : Value} (h : Spells input (.value w) rest) :
    ∃ b tail, input.dropWhile isBlank = b :: tail ∧ kindOf b = some w.kind := by
  cases h with
  | null hinput => exact ⟨_, _, hinput, rfl⟩
  | @truth _ _ b hinput =>
      cases b with
      | true => exact ⟨_, _, hinput, rfl⟩
      | false => exact ⟨_, _, hinput, rfl⟩
  | text hinput _ => exact ⟨_, _, hinput, rfl⟩
  | number hnumeral _ =>
      obtain ⟨b, tail, hinput, hb⟩ := numeral_head hnumeral
      exact ⟨b, tail, hinput, if_pos hb⟩
  | list hinput _ => exact ⟨_, _, hinput, rfl⟩
  | object hinput _ => exact ⟨_, _, hinput, rfl⟩

section Kinds

variable {b : UInt8} {tail input rest : Bytes} {w : Value}

theorem Spells.kind_of_cons (h : Spells input (.value w) rest)
    (hinput : input.dropWhile isBlank = b :: tail) : kindOf b = some w.kind := by
  obtain ⟨b', tail', hinput', hb⟩ := h.kind
  rw [hinput] at hinput'
  cases hinput'
  exact hb

/-- No value begins with a bracket that closes. -/
theorem not_spells_close (hinput : input.dropWhile isBlank = 0x5D :: tail) :
    ¬ Spells input (.value w) rest := by
  intro h
  cases h.kind_of_cons hinput

theorem Spells.list_of_cons (h : Spells input (.value w) rest)
    (hinput : input.dropWhile isBlank = 0x5B :: tail) :
    ∃ vs, w = .list vs ∧ Spells tail (.items true vs) rest := by
  have hkind := h.kind_of_cons hinput
  cases w with
  | list vs =>
      cases h with
      | list hinput' hvs =>
          rw [hinput] at hinput'
          cases hinput'
          exact ⟨vs, rfl, hvs⟩
  | _ => cases hkind

theorem Spells.object_of_cons (h : Spells input (.value w) rest)
    (hinput : input.dropWhile isBlank = 0x7B :: tail) :
    ∃ ms, w = .object ms ∧ Spells tail (.members true ms) rest := by
  have hkind := h.kind_of_cons hinput
  cases w with
  | object ms =>
      cases h with
      | object hinput' hms =>
          rw [hinput] at hinput'
          cases hinput'
          exact ⟨ms, rfl, hms⟩
  | _ => cases hkind

theorem Spells.number_of_cons (h : Spells input (.value w) rest)
    (hinput : input.dropWhile isBlank = b :: tail) (hb : b = 0x2D ∨ isDigit b = true) :
    ∃ n, w = .number n ∧ Gives Reader.number (b :: tail) n rest := by
  have hkind := h.kind_of_cons hinput
  have hnumber : kindOf b = some .number := if_pos hb
  rw [hnumber] at hkind
  cases w with
  | number n =>
      cases h with
      | number hnumeral hn =>
          rw [hinput] at hnumeral
          exact ⟨n, rfl, gives_number.mpr ⟨_, hnumeral, hn⟩⟩
  | _ => cases hkind

end Kinds

/-! ## Written values -/

/-- Without binary64 numbers a written value is spelled by its text. -/
theorem spells_write_of_reals_nil {v : Value} (h : v.reals = []) {rest : Bytes} (hrest : Ends rest) :
    Spells (v.write ++ rest) (.value v) rest := by
  refine spells_of_gives_raw (gives_raw_write v (Nat.le_refl _) ?_ hrest)
  rw [h]
  exact nofun

/-- A written number begins with its sign or a digit. -/
theorem text_head (x : Binary64) : ∃ b tail, octets (Decimal.Layout.json.text x) = b :: tail ∧
    (b = 0x2D ∨ isDigit b = true) :=
  numeral_head x.gives_numeralOf

/-- The first octet of a written value is that of its kind. -/
theorem write_head (v : Value) : ∃ b tail, v.write = b :: tail ∧ kindOf b = some v.kind := by
  cases v with
  | null | text _ | list _ | object _ => exact ⟨_, _, rfl, rfl⟩
  | truth b =>
      cases b with
      | true => exact ⟨_, _, rfl, rfl⟩
      | false => exact ⟨_, _, rfl, rfl⟩
  | number n =>
      have hhead : ∃ b tail, n.write = b :: tail ∧ (b = 0x2D ∨ isDigit b = true) := by
        cases n with
        | natural n =>
            rw [← List.append_nil (Number.write _)]
            exact number_head (gives_number_natural n ends_nil)
        | negative n =>
            rw [← List.append_nil (Number.write _)]
            exact number_head (gives_number_negative n ends_nil)
        | real x => exact text_head x
      obtain ⟨b, tail, hwrite, hb⟩ := hhead
      exact ⟨b, tail, hwrite, if_pos hb⟩

theorem dropWhile_write (v : Value) (rest : Bytes) :
    (v.write ++ rest).dropWhile isBlank = v.write ++ rest := by
  obtain ⟨b, tail, hwrite, hb⟩ := write_head v
  rw [hwrite, List.cons_append, List.dropWhile_cons, isBlank_of_kindOf hb]
  rfl

/-! ### Between commas -/

theorem Reader.Separated.eq {first : Bool} {input mid mid' : Bytes} (h : Separated first input mid)
    (h' : Separated first input mid') : mid' = mid := by
  cases first with
  | true => exact h'.trans (show mid = input from h).symm
  | false => exact (List.cons.inj (h'.symm.trans h)).2

/-- Texts with commas between them, or with a comma in front of each. -/
def joined : (first : Bool) → List Bytes → Bytes
  | true, texts => List.intercalate [0x2C] texts
  | false, texts => following texts

theorem joined_nil (first : Bool) : joined first [] = [] := by
  cases first with
  | true => rfl
  | false => rfl

/-- Only the first text stands without a comma in front of it. -/
theorem separated_joined (first : Bool) (t : Bytes) (texts : List Bytes) (after : Bytes) :
    Separated first (joined first (t :: texts) ++ after) (t ++ (following texts ++ after)) := by
  cases first with
  | true =>
      rw [joined, intercalate_cons, List.append_assoc]
      rfl
  | false =>
      rw [joined, following_cons, List.append_assoc]
      rfl

/-- No bracket that closes stands where something else was separated. -/
theorem Reader.Separated.ne_close {first : Bool} {input mid tail : Bytes} {b : UInt8}
    (h : Separated first input mid) (hb : b ≠ 0x2C) (hmid : mid.dropWhile isBlank ≠ b :: tail) :
    input.dropWhile isBlank ≠ b :: tail := by
  cases first with
  | true =>
      obtain rfl : mid = input := h
      exact hmid
  | false =>
      intro hclose
      exact hb (List.cons.inj (hclose.symm.trans h)).1

section Parts

variable {first : Bool} {input after rest : Bytes} {v : Value}

/-- Where the array is closed there are no more items. -/
theorem Spells.items_of_close {tail : Bytes} {ws : List Value} (h : Spells input (.items first ws) rest)
    (hinput : input.dropWhile isBlank = 0x5D :: tail) : ws = [] ∧ rest = tail := by
  cases h with
  | endOfList hclose =>
      rw [hinput] at hclose
      cases hclose
      exact ⟨rfl, rfl⟩
  | item hsep hv _ =>
      cases first with
      | true =>
          obtain rfl := hsep
          exact absurd hv (not_spells_close hinput)
      | false => cases hinput.symm.trans hsep

/-- Where the object is closed there are no more members. -/
theorem Spells.members_of_close {tail : Bytes} {ws : List (String × Value)}
    (h : Spells input (.members first ws) rest) (hinput : input.dropWhile isBlank = 0x7D :: tail) :
    ws = [] ∧ rest = tail := by
  cases h with
  | endOfObject hclose =>
      rw [hinput] at hclose
      cases hclose
      exact ⟨rfl, rfl⟩
  | member hsep hquote _ _ _ _ =>
      cases first with
      | true =>
          obtain rfl := hsep
          cases hinput.symm.trans hquote
      | false => cases hinput.symm.trans hsep

/-- Where an item was written the text goes on with an item. -/
theorem Spells.item_of_write {ws : List Value} (h : Spells input (.items first ws) rest)
    (hsep : Separated first input (v.write ++ after)) :
    ∃ w vs last, ws = w :: vs ∧ Spells (v.write ++ after) (.value w) last ∧
      Spells last (.items false vs) rest := by
  cases h with
  | endOfList hclose =>
      refine absurd hclose (hsep.ne_close (by decide) ?_)
      intro hmid
      obtain ⟨b, tail, hwrite, hb⟩ := write_head v
      rw [dropWhile_write, hwrite] at hmid
      cases hmid
      cases hb
  | item hsep' hv hvs =>
      obtain rfl := hsep.eq hsep'
      exact ⟨_, _, _, rfl, hv, hvs⟩

/-- Where a member was written the text goes on with a member of its key. -/
theorem Spells.member_of_write {key : String} {ws : List (String × Value)}
    (h : Spells input (.members first ws) rest)
    (hsep : Separated first input (writeMember key v.write ++ after)) :
    ∃ w ms last, ws = (key, w) :: ms ∧ Spells (v.write ++ after) (.value w) last ∧
      Spells last (.members false ms) rest := by
  cases h with
  | endOfObject hclose => exact absurd hclose (hsep.ne_close (by decide) nofun)
  | member hsep' hquote hkey hcolon hv hms =>
      obtain rfl := hsep.eq hsep'
      have hmember : writeMember key v.write ++ after =
          writeString key ++ (0x3A :: (v.write ++ after)) := by
        rw [writeMember, List.append_assoc]
        rfl
      rw [hmember] at hquote
      have hstart : writeString key ++ (0x3A :: (v.write ++ after)) = _ := hquote
      rw [← hstart] at hkey
      obtain ⟨rfl, rfl⟩ := (gives_string_write key _).eq hkey
      cases hcolon
      exact ⟨_, _, _, rfl, hv, hms⟩

end Parts

/-! ### Values -/

/-- A binary64 number comes back as what its text is read as. -/
theorem spells_write_real {x : Binary64} {w : Value} {rest rest' : Bytes} (hrest : Ends rest)
    (h : Spells ((Value.number (.real x)).write ++ rest) (.value w) rest') :
    w = .number (.real x.reread) ∧ (∀ y ∈ [x], y.Readable) ∧ rest' = rest := by
  obtain ⟨b, tail, htext, hb⟩ := text_head x
  have hinput : ((Value.number (.real x)).write ++ rest).dropWhile isBlank = b :: (tail ++ rest) := by
    rw [dropWhile_write]
    exact congrArg (· ++ rest) htext
  obtain ⟨n, rfl, hn⟩ := h.number_of_cons hinput hb
  rw [← List.cons_append, ← htext] at hn
  obtain ⟨hreadable, rfl, hsame⟩ := (Binary64.gives_number_text hrest).mp hn
  exact ⟨rfl, fun y hy => List.mem_singleton.mp hy ▸ hreadable, hsame⟩

mutual

/-- **What a written value is read as.** -/
theorem spells_write (v : Value) {w : Value} {rest rest' : Bytes} (hrest : Ends rest)
    (h : Spells (v.write ++ rest) (.value w) rest') :
    w = v.onReals Binary64.reread ∧ (∀ x ∈ v.reals, x.Readable) ∧ rest' = rest := by
  match v with
  | .null | .truth _ | .text _ | .number (.natural _) | .number (.negative _) =>
      obtain ⟨rfl, rfl⟩ := (spells_write_of_reals_nil rfl hrest).eq h
      exact ⟨rfl, nofun, rfl⟩
  | .number (.real x) => exact spells_write_real hrest h
  | .list items =>
      have htail : (Value.list items).write ++ rest =
          0x5B :: (joined true (writeItems items) ++ 0x5D :: rest) := by
        rw [Value.write, writeList, joined]
        simp
      rw [htail] at h
      obtain ⟨ws, rfl, hws⟩ := h.list_of_cons rfl
      obtain ⟨rfl, hreadable, hsame⟩ := spells_write_items true items hws
      exact ⟨rfl, hreadable, hsame⟩
  | .object members =>
      have htail : (Value.object members).write ++ rest =
          0x7B :: (joined true (writeMembers members) ++ 0x7D :: rest) := by
        rw [Value.write, writeObject, joined]
        simp
      rw [htail] at h
      obtain ⟨ws, rfl, hws⟩ := h.object_of_cons rfl
      obtain ⟨rfl, hreadable, hsame⟩ := spells_write_members true members hws
      exact ⟨rfl, hreadable, hsame⟩

/-- What the rest of an array is read as. -/
theorem spells_write_items (first : Bool) (vs : List Value) {ws : List Value} {rest rest' : Bytes}
    (h : Spells (joined first (writeItems vs) ++ 0x5D :: rest) (.items first ws) rest') :
    ws = itemsOnReals Binary64.reread vs ∧ (∀ x ∈ realsOfItems vs, x.Readable) ∧ rest' = rest := by
  match vs with
  | [] =>
      rw [writeItems, joined_nil, List.nil_append] at h
      obtain ⟨rfl, rfl⟩ := h.items_of_close rfl
      exact ⟨rfl, nofun, rfl⟩
  | v :: vs =>
      obtain ⟨_, _, _, rfl, hv, hvs⟩ := h.item_of_write (separated_joined first v.write _ _)
      obtain ⟨rfl, hreadv, rfl⟩ := spells_write v (ends_following (.inl rfl)) hv
      obtain ⟨rfl, hreadvs, hsame⟩ := spells_write_items false vs hvs
      exact ⟨rfl, List.forall_mem_append.mpr ⟨hreadv, hreadvs⟩, hsame⟩

/-- What the rest of an object is read as. -/
theorem spells_write_members (first : Bool) (ms : List (String × Value)) {ws : List (String × Value)}
    {rest rest' : Bytes}
    (h : Spells (joined first (writeMembers ms) ++ 0x7D :: rest) (.members first ws) rest') :
    ws = membersOnReals Binary64.reread ms ∧ (∀ x ∈ realsOfMembers ms, x.Readable) ∧
      rest' = rest := by
  match ms with
  | [] =>
      rw [writeMembers, joined_nil, List.nil_append] at h
      obtain ⟨rfl, rfl⟩ := h.members_of_close rfl
      exact ⟨rfl, nofun, rfl⟩
  | (key, v) :: ms =>
      obtain ⟨_, _, _, rfl, hv, hms⟩ :=
        h.member_of_write (separated_joined first (writeMember key v.write) _ _)
      obtain ⟨rfl, hreadv, rfl⟩ := spells_write v (ends_following (.inr rfl)) hv
      obtain ⟨rfl, hreadms, hsame⟩ := spells_write_members false ms hms
      exact ⟨rfl, List.forall_mem_append.mpr ⟨hreadv, hreadms⟩, hsame⟩

end

end CrashCourier.Json
