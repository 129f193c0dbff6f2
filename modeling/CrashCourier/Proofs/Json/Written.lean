import CrashCourier.Proofs.Json.Tree

/-!
# Written values read back

Every value is written without blanks, so its text is one that `raw` takes, and what it takes is the
value. Two things can come in between. A reader refuses what is nested too deep, and a number with a
fraction need not be read as itself; the depth of a value and the numbers in it are all that the
theorem asks about.

Repeated keys do no harm here. They are written one after the other and `raw` keeps them all.
-/

namespace CrashCourier.Json

/-! ## Depth and numbers -/

mutual

/-- How deep arrays and objects are nested in a value. -/
def Value.depth : Value → Nat
  | .null | .truth _ | .number _ | .text _ => 0
  | .list items => depthItems items + 1
  | .object members => depthMembers members + 1

/-- How deep they are nested in the items of an array. -/
def depthItems : List Value → Nat
  | [] => 0
  | v :: rest => max v.depth (depthItems rest)

/-- How deep they are nested in the members of an object. -/
def depthMembers : List (String × Value) → Nat
  | [] => 0
  | (_, v) :: rest => max v.depth (depthMembers rest)

end

/-- The number, if it is one with a fraction. -/
def Number.reals : Number → List Binary64
  | .real x => [x]
  | _ => []

mutual

/-- The numbers with a fraction in a value. -/
def Value.reals : Value → List Binary64
  | .null | .truth _ | .text _ => []
  | .number n => n.reals
  | .list items => realsOfItems items
  | .object members => realsOfMembers members

/-- Those in the items of an array. -/
def realsOfItems : List Value → List Binary64
  | [] => []
  | v :: rest => v.reals ++ realsOfItems rest

/-- Those in the members of an object. -/
def realsOfMembers : List (String × Value) → List Binary64
  | [] => []
  | (_, v) :: rest => v.reals ++ realsOfMembers rest

end

theorem Number.readsBack_of_reals {n : Number} (h : ∀ x ∈ n.reals, x.ReadsBack) :
    n.ReadsBack := by
  cases n with
  | natural n => trivial
  | negative n => trivial
  | real x => exact h x List.mem_cons_self

/-! ## What stands between commas -/

/-- The texts of what follows a first item or member, each with its comma. -/
def following (texts : List Bytes) : Bytes :=
  texts.flatMap (0x2C :: ·)

theorem following_cons (t : Bytes) (texts : List Bytes) :
    following (t :: texts) = 0x2C :: t ++ following texts := by
  rw [following, List.flatMap_cons]
  rfl

theorem intercalate_cons (t : Bytes) (texts : List Bytes) :
    List.intercalate [0x2C] (t :: texts) = t ++ following texts := by
  induction texts generalizing t with
  | nil => simp [List.intercalate, following]
  | cons t' texts ih =>
      have hrest := ih t'
      simp only [List.intercalate] at hrest ⊢
      rw [List.intersperse_cons_cons, List.flatten_cons, List.flatten_cons, hrest, following_cons]
      rfl

/-- The text of an object: only the first member stands without a comma in front of it. -/
theorem write_object_cons (key : String) (v : Value) (ms : Members) :
    (Value.object ((key, v) :: ms)).write =
      0x7B :: (writeMember key v.write ++ following (writeMembers ms)) ++ [0x7D] := by
  rw [Value.write, writeObject, writeMembers, intercalate_cons]

theorem following_writeMembers_cons (key : String) (v : Value) (ms : Members) :
    following (writeMembers ((key, v) :: ms)) =
      0x2C :: writeMember key v.write ++ following (writeMembers ms) := by
  rw [writeMembers, following_cons]

/-- What follows an item ends a number. -/
theorem ends_following {texts : List Bytes} {b : UInt8} {rest : Bytes}
    (hb : b = 0x5D ∨ b = 0x7D) : Reader.Ends (following texts ++ b :: rest) := by
  cases texts with
  | nil => exact Reader.ends_cons (.inr hb)
  | cons t texts =>
      rw [following_cons]
      exact Reader.ends_cons (.inl rfl)

namespace Reader

/-- A value's first octet is no blank and no bracket that closes. -/
theorem TakesValue.head {list : Bytes → List Value → Bytes → Prop}
    {object : Bytes → List (String × Value) → Bytes → Prop} {input rest : Bytes} {v : Value}
    (h : TakesValue list object input v rest) :
    ∃ b tail, input = b :: tail ∧ isBlank b = false ∧ b ≠ 0x5D := by
  cases h with
  | null hinput => exact ⟨0x6E, _, hinput, by decide, by decide⟩
  | @truth _ b hinput =>
      cases b with
      | true => exact ⟨0x74, _, hinput, by decide, by decide⟩
      | false => exact ⟨0x66, _, hinput, by decide, by decide⟩
  | text hinput _ => exact ⟨0x22, _, hinput, by decide, by decide⟩
  | number hn =>
      obtain ⟨b, tail, rfl, hb⟩ := number_head hn
      refine ⟨b, tail, rfl, (startsNumber_of_head hb).1, ?_⟩
      intro heq
      obtain rfl := heq
      rcases hb with hb | hb
      · exact absurd hb (by decide)
      · exact absurd hb (by decide)
  | list hinput _ => exact ⟨0x5B, _, hinput, by decide, by decide⟩
  | object hinput _ => exact ⟨0x7B, _, hinput, by decide, by decide⟩

/-- A form without a blank in front is taken as it stands. -/
theorem gives_raw_of_takesValue {depth : Nat} {input rest : Bytes} {v : Value}
    (h : TakesValue (RawItems depth) (RawMembers depth) input v rest) :
    Gives (raw depth) input v rest ∧ ∃ b tail,
      input.dropWhile isBlank = b :: tail ∧ b :: tail = input ∧ b ≠ 0x5D := by
  obtain ⟨b, tail, rfl, hblank, hb⟩ := h.head
  have hdrop : (b :: tail).dropWhile isBlank = b :: tail := by
    rw [List.dropWhile_cons, hblank]
    rfl
  refine ⟨gives_raw.mpr ?_, b, tail, hdrop, rfl, hb⟩
  rw [hdrop]
  exact h

end Reader

/-! ## Reading back -/

open Reader

/-- An item is taken, and the items behind it. -/
theorem takesItems_cons_write {depth : Nat} {first : Bool} {input after rest : Bytes} {v : Value}
    {vs : List Value} (hsep : Separated first input (v.write ++ after))
    (hv : TakesValue (RawItems depth) (RawMembers depth) (v.write ++ after) v after)
    (hvs : TakesItems (raw depth) false after vs rest) :
    TakesItems (raw depth) first input (v :: vs) rest := by
  obtain ⟨hgives, b, tail, hdrop, heq, hb⟩ := gives_raw_of_takesValue hv
  rw [← heq] at hgives
  exact .next hsep hdrop hb hgives hvs

/-- A member is taken, and the members behind it. -/
theorem takesPairs_cons_write {depth : Nat} {first : Bool} {input after rest : Bytes}
    {key : String} {v : Value} {ms : List (String × Value)}
    (hsep : Separated first input (writeMember key v.write ++ after))
    (hv : TakesValue (RawItems depth) (RawMembers depth) (v.write ++ after) v after)
    (hms : TakesPairs (raw depth) false after ms rest) :
    TakesPairs (raw depth) first input ((key, v) :: ms) rest := by
  have hmember : writeMember key v.write ++ after =
      writeString key ++ (0x3A :: (v.write ++ after)) := by
    rw [writeMember, List.append_assoc]
    rfl
  have hkey := gives_string_write key (0x3A :: (v.write ++ after))
  rw [hmember] at hsep
  exact .next hsep rfl hkey rfl (gives_raw_of_takesValue hv).1 hms

mutual

/-- A written value is taken. -/
theorem takesValue_write (v : Value) {depth : Nat} {rest : Bytes} (hdepth : v.depth ≤ depth)
    (hreals : ∀ x ∈ v.reals, x.ReadsBack) (hrest : Ends rest) :
    TakesValue (RawItems depth) (RawMembers depth) (v.write ++ rest) v rest := by
  match v with
  | .null =>
      rw [Value.write]
      exact .null rfl
  | .truth b =>
      rw [Value.write]
      exact .truth rfl
  | .number n =>
      rw [Value.write]
      rw [Value.reals] at hreals
      exact .number (gives_number_write (n.readsBack_of_reals hreals) hrest)
  | .text s =>
      rw [Value.write]
      exact .text rfl (gives_string_write s rest)
  | .list items =>
      rw [Value.depth] at hdepth
      rw [Value.reals] at hreals
      obtain ⟨inner, rfl⟩ : ∃ inner, depth = inner + 1 := ⟨depth - 1, by omega⟩
      have hinner : depthItems items ≤ inner := by omega
      have htail : (Value.list items).write ++ rest =
          0x5B :: (List.intercalate [0x2C] (writeItems items) ++ 0x5D :: rest) := by
        rw [Value.write, writeList]
        simp
      -- what stands between the brackets is read one level less deep
      refine .list htail (rawItems_succ.mpr ((gives_items (shortens_raw inner)).mpr ?_))
      match items with
      | [] => exact .close rfl
      | v :: vs =>
          rw [depthItems] at hinner
          rw [realsOfItems] at hreals
          rw [writeItems, intercalate_cons, List.append_assoc]
          -- only the first item stands without a comma in front of it
          exact takesItems_cons_write rfl
            (takesValue_write v (by omega) (fun x hx => hreals x (List.mem_append_left _ hx))
              (ends_following (.inl rfl)))
            (takesItems_write vs (by omega) fun x hx => hreals x (List.mem_append_right _ hx))
  | .object members =>
      rw [Value.depth] at hdepth
      rw [Value.reals] at hreals
      obtain ⟨inner, rfl⟩ : ∃ inner, depth = inner + 1 := ⟨depth - 1, by omega⟩
      have hinner : depthMembers members ≤ inner := by omega
      have htail : (Value.object members).write ++ rest =
          0x7B :: (List.intercalate [0x2C] (writeMembers members) ++ 0x7D :: rest) := by
        rw [Value.write, writeObject]
        simp
      -- and so is what stands between the braces
      refine .object htail (rawMembers_succ.mpr ((gives_rawMembers (leaves_raw inner)).mpr ?_))
      match members with
      | [] => exact .close rfl
      | (key, v) :: ms =>
          rw [depthMembers] at hinner
          rw [realsOfMembers] at hreals
          rw [writeMembers, intercalate_cons, List.append_assoc]
          exact takesPairs_cons_write rfl
            (takesValue_write v (by omega) (fun x hx => hreals x (List.mem_append_left _ hx))
              (ends_following (.inr rfl)))
            (takesPairs_write ms (by omega) fun x hx => hreals x (List.mem_append_right _ hx))

/-- The items behind the first are taken, each with its comma. -/
theorem takesItems_write (vs : List Value) {depth : Nat} {rest : Bytes}
    (hdepth : depthItems vs ≤ depth) (hreals : ∀ x ∈ realsOfItems vs, x.ReadsBack) :
    TakesItems (raw depth) false (following (writeItems vs) ++ 0x5D :: rest) vs rest := by
  match vs with
  | [] => exact .close rfl
  | v :: vs =>
      rw [depthItems] at hdepth
      rw [realsOfItems] at hreals
      rw [writeItems, following_cons, List.append_assoc]
      exact takesItems_cons_write rfl
        (takesValue_write v (by omega) (fun x hx => hreals x (List.mem_append_left _ hx))
          (ends_following (.inl rfl)))
        (takesItems_write vs (by omega) fun x hx => hreals x (List.mem_append_right _ hx))

/-- The members behind the first are taken, each with its comma. -/
theorem takesPairs_write (ms : List (String × Value)) {depth : Nat} {rest : Bytes}
    (hdepth : depthMembers ms ≤ depth) (hreals : ∀ x ∈ realsOfMembers ms, x.ReadsBack) :
    TakesPairs (raw depth) false (following (writeMembers ms) ++ 0x7D :: rest) ms rest := by
  match ms with
  | [] => exact .close rfl
  | (key, v) :: ms =>
      rw [depthMembers] at hdepth
      rw [realsOfMembers] at hreals
      rw [writeMembers, following_cons, List.append_assoc]
      exact takesPairs_cons_write rfl
        (takesValue_write v (by omega) (fun x hx => hreals x (List.mem_append_left _ hx))
          (ends_following (.inr rfl)))
        (takesPairs_write ms (by omega) fun x hx => hreals x (List.mem_append_right _ hx))

end

/-- **A value that was written is read back, whatever follows it.** -/
theorem gives_raw_write (v : Value) {depth : Nat} {rest : Bytes} (hdepth : v.depth ≤ depth)
    (hreals : ∀ x ∈ v.reals, x.ReadsBack) (hrest : Ends rest) :
    Gives (raw depth) (v.write ++ rest) v rest :=
  (gives_raw_of_takesValue (takesValue_write v hdepth hreals hrest)).1

end CrashCourier.Json
