import CrashCourier.Json.Shape
import CrashCourier.Proofs.Json.Settled
import Mathlib.Data.List.DropRight

/-!
# Shapes of trees

A shape makes of a tree what it holds: `Shape.ofValue?` converts scalars, goes through arrays item by
item, and puts the members of a record one after the other into the slots of the named members or,
if no field has the key, to the other members.

The reader of a shape takes the octets of the tree and holds just that (`readsAs_shape`). What the
reader does with a member and what is done with its value go by the same comparison of keys, so the
two follow each other field by field.
-/

namespace CrashCourier.Json

variable {α σ : Type}

/-! ## What a shape makes of a tree -/

/-- The natural number of 64 bits that the number is, if it is one. -/
def Number.natural? : Number → Option UInt64
  | .natural n => some n
  | _ => none

/-- The whole number of 64 bits that the number is, if it is one. -/
def Number.integer? : Number → Option Int64
  | .natural n => if n.toNat < Negative.greatest then some n.toInt64 else none
  | .negative n => some (Int64.ofInt (-(n.magnitude : Int)))
  | .real _ => none

/-- The binary64 number that is nearest to the number. -/
def Number.nearest : Number → Binary64
  | .natural n => (Binary64.ofRatio? false n.toNat 1).getD (Binary64.zero false)
  | .negative n => (Binary64.ofRatio? true n.magnitude 1).getD (Binary64.zero true)
  | .real x => x

/-- The number that the value is, if it is one. -/
def Value.number? : Value → Option Number
  | .number n => some n
  | _ => none

/-- The truth value that the value is, if it is one. -/
def Value.truth? : Value → Option Bool
  | .truth b => some b
  | _ => none

/-- The items of an array. -/
def Value.items? : Value → Option (List Value)
  | .list items => some items
  | _ => none

/-- What a member holds by its value. -/
def Presence.ofValue? (of? : Value → Option α) :
    (presence : Presence) → Value → Option (presence.Holding α)
  | .required, v => of? v
  | .optional, .null => some none
  | .optional, v => (of? v).map some

theorem Presence.ofValue_of_ne_null (of? : Value → Option α) {v : Value} (hv : v ≠ .null) :
    Presence.optional.ofValue? of? v = (of? v).map some := by
  cases v with
  | null => exact absurd rfl hv
  | _ => rfl

/-- Puts an entry of a table in. -/
def putCount (key : String) (v : Value) (counts : Table UInt64) : Option (Table UInt64) :=
  (v.number?.bind Number.natural?).map fun n => Table.insert key n counts

/-- Puts a value into a slot, unless something is there. -/
def putSlot (of? : Value → Option α) (v : Value) (slots : σ) :
    Option α → Option (Option α × σ)
  | some _ => none
  | none => (of? v).map fun held => (some held, slots)

/-- Puts a member of a record in: to the fields if one has the key, to the other members if none
has. -/
def putMember (place? : String → Value → σ → Option (Option σ)) (key : String) (v : Value) :
    σ × Members → Option (σ × Members)
  | (slots, extra) =>
    match place? key v slots with
    | some slots? => slots?.map fun slots => (slots, extra)
    | none => some (slots, Members.set key v.settled extra)

theorem putMember_of_none {place? : String → Value → σ → Option (Option σ)} {key : String} {v : Value}
    {slots : σ} (h : place? key v slots = none) (extra : Members) :
    putMember place? key v (slots, extra) = some (slots, Members.set key v.settled extra) := by
  simp only [putMember, h]

theorem putMember_of_some {place? : String → Value → σ → Option (Option σ)} {key : String} {v : Value}
    {slots : σ} {slots? : Option σ} (h : place? key v slots = some slots?) (extra : Members) :
    putMember place? key v (slots, extra) = slots?.map fun slots => (slots, extra) := by
  simp only [putMember, h]

/-- What a record holds once its members are put in. -/
def Fields.filled? (fields : Fields) (put : fields.Slots × Members) :
    Option (fields.Held × Members) :=
  (fields.ofSlots put.1).toOption.map fun held => (held, put.2)

mutual

/-- What a value of a shape holds, by its tree. -/
def Shape.ofValue? : (shape : Shape) → Value → Option shape.Held
  | .text, v => v.text?
  | .natural, v => v.number?.bind Number.natural?
  | .integer, v => v.number?.bind Number.integer?
  | .real, v => v.number?.map Number.nearest
  | .truth, v => v.truth?
  | .table, v => v.members?.map fun ms => Members.collected (settledMembers ms)
  | .counters, v => v.members?.bind fun ms => Reader.putAll putCount ms Table.empty
  | .list item, v => v.items?.bind fun vs => vs.mapM item.ofValue?
  | .record _ fields, v =>
    v.members?.bind fun ms =>
      (Reader.putAll (putMember fields.place?) ms (fields.noSlots, [])).bind fields.filled?

/-- Puts a value into the slot of its key. The answer is `none` if no field has the key, and
`some none` if the slot is taken or the value is not what the field wants. -/
def Fields.place? : (fields : Fields) → (key : String) → Value → fields.Slots →
    Option (Option fields.Slots)
  | .nil, _, _, _ => none
  | .cons name presence shape rest, key, v, (slot, slots) =>
    if key = name then some (putSlot (presence.ofValue? shape.ofValue?) v slots slot)
    else (rest.place? key v slots).map fun slots? => slots?.map fun slots => (slot, slots)

end

namespace Reader

/-! ## Scalars -/

/-- A value that is not of the kind wanted is not taken. -/
theorem not_gives_unexpected {wanted : Wanted} {input rest : Bytes} {a : α} :
    ¬ Gives (unexpected wanted) input a rest := by
  intro h
  unfold unexpected at h
  obtain ⟨c, mid, _, h⟩ := gives_bind.mp h
  split at h
  · exact gives_throw h
  · obtain ⟨_, _, _, h⟩ := gives_bind.mp h
    exact gives_throw h
  · obtain ⟨_, _, _, h⟩ := gives_bind.mp h
    exact gives_throw h
  · obtain ⟨_, _, _, h⟩ := gives_bind.mp h
    exact gives_throw h
  · obtain ⟨_, _, _, h⟩ := gives_bind.mp h
    exact gives_throw h
  · exact gives_throw h
  · exact gives_throw h
  · split at h
    · obtain ⟨_, _, _, h⟩ := gives_bind.mp h
      exact gives_throw h
    · exact gives_throw h

/-- The octet that is wanted is ahead, or nothing is taken. -/
theorem gives_if_ahead {b : UInt8} {c : Char} (hb : Char.ofUInt8 b = c) {wanted : Wanted}
    {r : Reader α} {input rest : Bytes} {a : α} :
    Gives (do if (← ahead) = some c then r else unexpected wanted) input a rest ↔
      (∃ tail, input.dropWhile isBlank = b :: tail) ∧ Gives r (input.dropWhile isBlank) a rest := by
  subst hb
  rw [gives_bind]
  refine ⟨?_, ?_⟩
  · intro h
    obtain ⟨c, mid, hahead, h⟩ := h
    obtain ⟨rfl, rfl⟩ := gives_ahead.mp hahead
    split at h
    · rename_i hc
      exact ⟨head_eq_some.mp hc, h⟩
    · exact absurd h not_gives_unexpected
  · intro h
    obtain ⟨htail, h⟩ := h
    refine ⟨_, _, gives_ahead.mpr ⟨rfl, rfl⟩, ?_⟩
    rw [if_pos (head_eq_some.mpr htail)]
    exact h

theorem readsAs_text (depth : Nat) : ReadsAs text (raw depth) Value.text? := by
  intro input rest s
  unfold text
  rw [gives_if_ahead (b := 0x22) (c := '"') rfl]
  simp only [gives_raw]
  refine ⟨?_, ?_⟩
  · intro h
    obtain ⟨⟨tail, htail⟩, hs⟩ := h
    exact ⟨.text s, .text htail hs, rfl⟩
  · intro h
    obtain ⟨v, hv, hs⟩ := h
    cases hv with
    | text hinput hs' =>
        obtain rfl := Option.some.inj hs
        exact ⟨⟨_, hinput⟩, hs'⟩
    | _ => cases hs

theorem readsAs_truth (depth : Nat) : ReadsAs truth (raw depth) Value.truth? := by
  intro input rest b
  unfold truth
  rw [gives_bind]
  simp only [gives_raw]
  refine ⟨?_, ?_⟩
  · intro h
    obtain ⟨c, mid, hahead, h⟩ := h
    obtain ⟨rfl, rfl⟩ := gives_ahead.mp hahead
    split at h
    · obtain ⟨_, _, hword, h⟩ := gives_bind.mp h
      obtain ⟨rfl, rfl⟩ := gives_pure.mp h
      exact ⟨.truth true, .truth (gives_word.mp hword), rfl⟩
    · obtain ⟨_, _, hword, h⟩ := gives_bind.mp h
      obtain ⟨rfl, rfl⟩ := gives_pure.mp h
      exact ⟨.truth false, .truth (gives_word.mp hword), rfl⟩
    · exact absurd h not_gives_unexpected
  · intro h
    obtain ⟨v, hv, hb⟩ := h
    cases hv with
    | @truth _ b' hinput =>
        obtain rfl : b' = b := Option.some.inj hb
        refine ⟨_, _, gives_ahead.mpr ⟨rfl, hinput.symm⟩, ?_⟩
        cases b' with
        | true => exact gives_bind.mpr ⟨(), rest, gives_word.mpr rfl, gives_pure.mpr ⟨rfl, rfl⟩⟩
        | false => exact gives_bind.mpr ⟨(), rest, gives_word.mpr rfl, gives_pure.mpr ⟨rfl, rfl⟩⟩
    | _ => cases hb

theorem readsAs_numberAs {wanted : Wanted} {convert : Number → Except Mismatch α}
    {of? : Number → Option α} (hof : ∀ n, of? n = (convert n).toOption) (depth : Nat) :
    ReadsAs (numberAs wanted convert) (raw depth) fun v => v.number?.bind of? := by
  intro input rest a
  unfold numberAs
  rw [gives_bind]
  simp only [gives_raw]
  refine ⟨?_, ?_⟩
  · intro h
    obtain ⟨c, mid, hahead, h⟩ := h
    obtain ⟨rfl, rfl⟩ := gives_ahead.mp hahead
    split at h
    · split at h
      · obtain ⟨n, after, hn, h⟩ := gives_bind.mp h
        split at h
        · rename_i heq
          obtain ⟨rfl, rfl⟩ := gives_pure.mp h
          refine ⟨.number n, .number hn, ?_⟩
          rw [Value.number?, Option.bind_some, hof, heq]
          rfl
        · exact absurd h gives_throw
      · exact absurd h not_gives_unexpected
    · exact absurd h gives_throw
  · intro h
    obtain ⟨v, hv, ha⟩ := h
    cases hv with
    | @number _ n hn =>
        -- the octet ahead says only that a number follows; `convert` says whether it fits
        obtain ⟨b, tail, hinput, hb⟩ := number_head hn
        refine ⟨_, _, gives_ahead.mpr ⟨rfl, rfl⟩, ?_⟩
        rw [hinput] at hn ⊢
        simp only [List.head?_cons, Option.map_some, (startsNumber_of_head hb).2, if_true]
        refine gives_bind.mpr ⟨n, rest, hn, ?_⟩
        rw [Value.number?, Option.bind_some, hof] at ha
        cases hconvert : convert n with
        | error m =>
            rw [hconvert] at ha
            cases ha
        | ok a' =>
            rw [hconvert] at ha
            exact gives_pure.mpr ⟨(Option.some.inj ha).symm, rfl⟩
    | _ => cases ha

theorem readsAs_natural (depth : Nat) :
    ReadsAs natural (raw depth) fun v => v.number?.bind Number.natural? := by
  refine readsAs_numberAs (fun n => ?_) depth
  cases n with
  | natural n => rfl
  | negative n => rfl
  | real x => rfl

theorem readsAs_integer (depth : Nat) :
    ReadsAs integer (raw depth) fun v => v.number?.bind Number.integer? := by
  refine readsAs_numberAs (fun n => ?_) depth
  cases n with
  | natural n =>
      rw [Number.integer?]
      by_cases h : n.toNat < Negative.greatest
      · simp only [if_pos h]
        rfl
      · simp only [if_neg h]
        rfl
  | negative n => rfl
  | real x => rfl

theorem readsAs_real (depth : Nat) :
    ReadsAs real (raw depth) fun v => v.number?.map Number.nearest := by
  have hof : ∀ v : Value, v.number?.map Number.nearest =
      v.number?.bind fun n => some n.nearest := fun v => Option.map_eq_bind ..
  simp only [hof]
  intro input rest x
  refine readsAs_numberAs (fun n => ?_) depth
  cases n with
  | natural n => rfl
  | negative n => rfl
  | real x => rfl

/-! ## Arrays and objects -/

theorem gives_enter {b : UInt8} {inside : Nat → Reader α} {depth : Nat} {tail rest : Bytes}
    {a : α} : Gives (enter inside depth) (b :: tail) a rest ↔ Within inside depth tail a rest := by
  cases depth with
  | zero => exact ⟨fun h => absurd h gives_throw, fun h => absurd h not_within_zero⟩
  | succ depth =>
      rw [within_succ, enter, gives_bind]
      simp only [gives_skip, List.tail_cons, exists_eq_left, exists_const]

/-- **An array is read by its items.** -/
theorem readsAs_array {inside : Nat → Reader α} {of? : List Value → Option α}
    (h : ∀ {inner : Nat} {tail rest : Bytes} {a : α}, Gives (inside inner) tail a rest ↔
      ∃ vs, Gives (items (raw inner)) tail vs rest ∧ of? vs = some a) (depth : Nat) :
    ReadsAs (array inside depth) (raw depth) fun v => v.items?.bind of? := by
  intro input rest a
  unfold array
  rw [gives_if_ahead (b := 0x5B) (c := '[') rfl]
  simp only [gives_raw]
  refine ⟨?_, ?_⟩
  · intro hr
    obtain ⟨⟨tail, htail⟩, hr⟩ := hr
    rw [htail, gives_enter] at hr
    obtain ⟨inner, rfl, hr⟩ := hr
    obtain ⟨vs, hvs, ha⟩ := h.mp hr
    exact ⟨.list vs, .list htail (rawItems_succ.mpr hvs), ha⟩
  · intro hr
    obtain ⟨v, hv, ha⟩ := hr
    cases hv with
    | list hinput hvs =>
        obtain ⟨inner, rfl, hvs⟩ := hvs
        refine ⟨⟨_, hinput⟩, ?_⟩
        rw [hinput, gives_enter, within_succ]
        exact h.mpr ⟨_, hvs, ha⟩
    | _ => cases ha

/-- **An object is read by its members.** -/
theorem readsAs_object {wanted : Wanted} {inside : Nat → Reader α}
    {of? : List (String × Value) → Option α}
    (h : ∀ {inner : Nat} {tail rest : Bytes} {a : α}, Gives (inside inner) tail a rest ↔
      ∃ ms, Gives (members (rawMember (raw inner)) []) tail ms rest ∧ of? ms = some a)
    (depth : Nat) :
    ReadsAs (object wanted inside depth) (raw depth) fun v => v.members?.bind of? := by
  intro input rest a
  unfold object
  rw [gives_if_ahead (b := 0x7B) (c := '\x7b') rfl]
  simp only [gives_raw]
  refine ⟨?_, ?_⟩
  · intro hr
    obtain ⟨⟨tail, htail⟩, hr⟩ := hr
    rw [htail, gives_enter] at hr
    obtain ⟨inner, rfl, hr⟩ := hr
    obtain ⟨ms, hms, ha⟩ := h.mp hr
    exact ⟨.object ms, .object htail (rawMembers_succ.mpr hms), ha⟩
  · intro hr
    obtain ⟨v, hv, ha⟩ := hr
    cases hv with
    | object hinput hms =>
        obtain ⟨inner, rfl, hms⟩ := hms
        refine ⟨⟨_, hinput⟩, ?_⟩
        rw [hinput, gives_enter, within_succ]
        exact h.mpr ⟨_, hms, ha⟩
    | _ => cases ha

/-! ## Members -/

theorem gives_raw_dropWhile {depth : Nat} {input rest : Bytes} {v : Value} :
    Gives (raw depth) (input.dropWhile isBlank) v rest ↔ Gives (raw depth) input v rest := by
  rw [gives_raw, gives_raw, List.dropWhile_idempotent]

/-- A value that begins as `null` does is `null`. -/
theorem TakesValue.eq_null {list : Bytes → List Value → Bytes → Prop}
    {object : Bytes → List (String × Value) → Bytes → Prop} {tail rest : Bytes} {v : Value}
    (h : TakesValue list object (0x6E :: tail) v rest) :
    v = .null ∧ 0x6E :: tail = octets "null" ++ rest := by
  cases h with
  | null hinput => exact ⟨rfl, hinput⟩
  | @truth _ b hinput =>
      cases b with
      | true => exact absurd (List.cons.inj hinput).1 (by decide)
      | false => exact absurd (List.cons.inj hinput).1 (by decide)
  | text hinput _ => exact absurd (List.cons.inj hinput).1 (by decide)
  | number hn =>
      obtain ⟨b, tail', heq, hb⟩ := number_head hn
      rw [← (List.cons.inj heq).1] at hb
      exact absurd hb (by decide)
  | list hinput _ => exact absurd (List.cons.inj hinput).1 (by decide)
  | object hinput _ => exact absurd (List.cons.inj hinput).1 (by decide)

/-- What may be `null` is `null`, or it is read as it would be otherwise. -/
theorem gives_unless_null {r : Reader α} {input rest : Bytes} {held : Option α} :
    Gives (do
      if (← ahead) = some 'n' then
        takeNull
        return none
      else return some (← r)) input held rest ↔
    (held = none ∧ input.dropWhile isBlank = octets "null" ++ rest) ∨
      (∃ a, held = some a ∧ Gives r (input.dropWhile isBlank) a rest ∧
        ∀ tail, input.dropWhile isBlank ≠ 0x6E :: tail) := by
  rw [gives_bind]
  refine ⟨?_, ?_⟩
  · intro h
    obtain ⟨c, mid, hahead, h⟩ := h
    obtain ⟨rfl, rfl⟩ := gives_ahead.mp hahead
    split at h
    · obtain ⟨_, _, hword, h⟩ := gives_bind.mp h
      obtain ⟨rfl, rfl⟩ := gives_pure.mp h
      exact .inl ⟨rfl, gives_word.mp hword⟩
    · rename_i hc
      obtain ⟨a, _, ha, h⟩ := gives_bind.mp h
      obtain ⟨rfl, rfl⟩ := gives_pure.mp h
      exact .inr ⟨a, rfl, ha, fun tail heq => hc (head_eq_some.mpr ⟨tail, heq⟩)⟩
  · intro h
    refine ⟨_, _, gives_ahead.mpr ⟨rfl, rfl⟩, ?_⟩
    rcases h with ⟨rfl, hnull⟩ | ⟨a, rfl, ha, hne⟩
    · rw [hnull, if_pos (by rfl)]
      exact gives_bind.mpr ⟨(), rest, gives_word.mpr rfl, gives_pure.mpr ⟨rfl, rfl⟩⟩
    · rw [if_neg]
      · exact gives_bind.mpr ⟨a, rest, ha, gives_pure.mpr ⟨rfl, rfl⟩⟩
      · intro hc
        obtain ⟨tail, heq⟩ := (head_eq_some (b := 0x6E)).mp hc
        exact hne tail heq

/-- A value is `null` if and only if it begins as `null` does. -/
theorem ne_null_iff {depth : Nat} {input rest : Bytes} {v : Value}
    (h : Gives (raw depth) input v rest) :
    v ≠ .null ↔ ∀ tail, input.dropWhile isBlank ≠ 0x6E :: tail := by
  have hv := gives_raw.mp h
  refine ⟨?_, ?_⟩
  · intro hne tail heq
    rw [heq] at hv
    exact hne hv.eq_null.1
  · intro hne hnull
    subst hnull
    cases hv with
    | null hinput => exact hne _ hinput

theorem readsAs_presence {r : Reader α} {of? : Value → Option α} {depth : Nat}
    (h : ReadsAs r (raw depth) of?) (presence : Presence) :
    ReadsAs (presence.read r) (raw depth) (presence.ofValue? of?) := by
  cases presence with
  | required => exact h
  | optional =>
      intro input rest held
      refine Iff.trans gives_unless_null ?_
      refine ⟨?_, ?_⟩
      · intro hr
        rcases hr with ⟨rfl, hnull⟩ | ⟨a, rfl, ha, hne⟩
        · exact ⟨.null, gives_raw.mpr (.null hnull), rfl⟩
        · -- the reader looked past the blanks before it decided
          obtain ⟨v, hv, hof⟩ := h.mp ha
          rw [gives_raw_dropWhile] at hv
          refine ⟨v, hv, ?_⟩
          have hv' := (ne_null_iff hv).mpr hne
          exact (Presence.ofValue_of_ne_null of? hv').trans (congrArg (Option.map some) hof)
      · intro hr
        obtain ⟨v, hv, hof⟩ := hr
        cases v with
        | null =>
            obtain rfl := Option.some.inj hof
            cases gives_raw.mp hv with
            | null hinput => exact .inl ⟨rfl, hinput⟩
        | _ =>
            obtain ⟨a, ha, rfl⟩ := Option.map_eq_some_iff.mp hof
            refine .inr ⟨a, rfl, h.mpr ⟨_, gives_raw_dropWhile.mpr hv, ha⟩, ?_⟩
            exact (ne_null_iff hv).mp (fun heq => nomatch heq)

/-- The reader takes a colon and the tree of a value and puts the value in. -/
def TakesMember (depth : Nat) (reader : Reader σ) (put : Value → Option σ) : Prop :=
  ∀ {input rest : Bytes} {t : σ}, Gives reader input t rest ↔
    ∃ more v, input.dropWhile isBlank = 0x3A :: more ∧ Gives (raw depth) more v rest ∧
      put v = some t

/-- If something reads the member, then it puts in what `place?` does; if nothing reads it, then
`place?` has no place for it. -/
def Follows (depth : Nat) (reader? : Option (Reader σ)) (place? : Value → Option (Option σ)) : Prop :=
  match reader? with
  | none => ∀ v, place? v = none
  | some reader => ∃ put, (∀ v, place? v = some (put v)) ∧ TakesMember depth reader put

/-- The entries of a table are taken as they are put in. -/
theorem memberAs_counter (depth : Nat) :
    MemberAs (fun key counts => do
      colon
      return Table.insert key (← natural) counts) (raw depth) putCount := by
  intro key counts counts' input rest
  simp only [gives_bind, gives_colon, gives_pure]
  refine ⟨?_, ?_⟩
  · intro h
    obtain ⟨_, more, hcolon, n, _, hn, rfl, rfl⟩ := h
    obtain ⟨v, hv, hof⟩ := (readsAs_natural depth).mp hn
    exact ⟨more, v, hcolon, hv, congrArg (Option.map _) hof⟩
  · intro h
    obtain ⟨more, v, hcolon, hv, hput⟩ := h
    obtain ⟨n, hof, rfl⟩ := Option.map_eq_some_iff.mp hput
    exact ⟨(), more, hcolon, n, rest, (readsAs_natural depth).mpr ⟨v, hv, hof⟩, rfl, rfl⟩

/-- Takes a member of a record. -/
def recordMember (depth : Nat) (reader? : String → σ → Option (Reader σ)) (key : String)
    (taken : σ × Members) : Reader (σ × Members) :=
  match reader? key taken.1 with
  | some reader => do return (← reader, taken.2)
  | none => do return (taken.1, ← freeMember depth key taken.2)

/-- The members of a record are taken as they are put in. -/
theorem memberAs_record {depth : Nat} {reader? : String → σ → Option (Reader σ)}
    {place? : String → Value → σ → Option (Option σ)}
    (h : ∀ key slots, Follows depth (reader? key slots) fun v => place? key v slots) :
    MemberAs (recordMember depth reader?) (raw depth) (putMember place?) := by
  intro key ⟨slots, extra⟩ ⟨slots', extra'⟩ input rest
  have hkey := h key slots
  unfold recordMember
  cases hreader : reader? key slots with
  | none =>
      -- the key is that of no field: the member is kept with the others
      rw [hreader] at hkey
      have hput (v : Value) := putMember_of_none (hkey v) extra
      simp only [hput]
      rw [gives_bind]
      refine ⟨?_, ?_⟩
      · intro hr
        obtain ⟨extra, after, hfree, hr⟩ := hr
        obtain ⟨heq, rfl⟩ := gives_pure.mp hr
        obtain ⟨more, v, hcolon, hv, hput⟩ := (memberAs_freeMember (readsAs_value depth)).mp hfree
        exact ⟨more, v, hcolon, hv, by rw [heq, Option.some.inj hput]⟩
      · intro hr
        obtain ⟨more, v, hcolon, hv, hput⟩ := hr
        refine ⟨_, rest, (memberAs_freeMember (readsAs_value depth)).mpr
          ⟨more, v, hcolon, hv, rfl⟩, gives_pure.mpr ⟨(Option.some.inj hput).symm, rfl⟩⟩
  | some reader =>
      -- the key is that of a field: its reader takes the value
      rw [hreader] at hkey
      obtain ⟨put, hplace, hreads⟩ := hkey
      have hput (v : Value) := putMember_of_some (hplace v) extra
      simp only [hput]
      rw [gives_bind]
      refine ⟨?_, ?_⟩
      · intro hr
        obtain ⟨slots, after, hslots, hr⟩ := hr
        obtain ⟨heq, rfl⟩ := gives_pure.mp hr
        obtain ⟨more, v, hcolon, hv, hput⟩ := hreads.mp hslots
        exact ⟨more, v, hcolon, hv, by rw [hput, heq]; rfl⟩
      · intro hr
        obtain ⟨more, v, hcolon, hv, hput⟩ := hr
        obtain ⟨t, hput, heq⟩ := Option.map_eq_some_iff.mp hput
        exact ⟨t, rest, hreads.mpr ⟨more, v, hcolon, hv, hput⟩, gives_pure.mpr ⟨heq.symm, rfl⟩⟩

/-- A field whose slot is taken takes nothing more. -/
theorem takesMember_taken (depth : Nat) (fault : Fault) (of? : Value → Option α) (held : α)
    (slots : σ) :
    TakesMember depth (throw fault) fun v => putSlot of? v slots (some held) := by
  intro input rest t
  refine ⟨fun h => absurd h gives_throw, fun h => ?_⟩
  obtain ⟨_, _, _, _, hput⟩ := h
  cases hput

/-- A field whose slot is free takes what its shape takes. -/
theorem takesMember_free {r : Reader α} {of? : Value → Option α} {depth : Nat}
    (h : ReadsAs r (raw depth) of?) (slots : σ) :
    TakesMember depth
      (do
        colon
        return (some (← r), slots))
      fun v => putSlot of? v slots none := by
  intro input rest t
  simp only [gives_bind, gives_colon, gives_pure]
  refine ⟨?_, ?_⟩
  · intro hr
    obtain ⟨_, more, hcolon, held, _, hheld, rfl, rfl⟩ := hr
    obtain ⟨v, hv, hof⟩ := h.mp hheld
    exact ⟨more, v, hcolon, hv, congrArg (Option.map _) hof⟩
  · intro hr
    obtain ⟨more, v, hcolon, hv, hput⟩ := hr
    obtain ⟨held, hof, rfl⟩ := Option.map_eq_some_iff.mp hput
    exact ⟨(), more, hcolon, held, rest, h.mpr ⟨v, hv, hof⟩, rfl, rfl⟩

/-- A field that does not have the key leaves the value to the others. -/
theorem Follows.behind {τ : Type} {depth : Nat} {reader? : Option (Reader σ)}
    {place? : Value → Option (Option σ)} (h : Follows depth reader? place?) (slot : τ) :
    Follows depth (reader?.map fun reader => do return (slot, ← reader))
      fun v => (place? v).map fun slots? => slots?.map fun slots => (slot, slots) := by
  cases reader? with
  | none =>
      intro v
      exact congrArg (Option.map _) (h v)
  | some reader =>
      obtain ⟨put, hplace, hreads⟩ := h
      refine ⟨fun v => (put v).map fun slots => (slot, slots),
        fun v => congrArg (Option.map _) (hplace v), ?_⟩
      intro input rest t
      rw [gives_bind]
      refine ⟨?_, ?_⟩
      · intro hr
        obtain ⟨slots, _, hslots, hr⟩ := hr
        obtain ⟨rfl, rfl⟩ := gives_pure.mp hr
        obtain ⟨more, v, hcolon, hv, hput⟩ := hreads.mp hslots
        exact ⟨more, v, hcolon, hv, congrArg (Option.map _) hput⟩
      · intro hr
        obtain ⟨more, v, hcolon, hv, hput⟩ := hr
        obtain ⟨slots, hslots, rfl⟩ := Option.map_eq_some_iff.mp hput
        exact ⟨slots, rest, hreads.mpr ⟨more, v, hcolon, hv, hslots⟩, gives_pure.mpr ⟨rfl, rfl⟩⟩

theorem Follows.ite {c : Prop} [Decidable c] {depth : Nat} {reader? reader?' : Option (Reader σ)}
    {place? place?' : Value → Option (Option σ)} (h : c → Follows depth reader? place?)
    (h' : ¬ c → Follows depth reader?' place?') :
    Follows depth (if c then reader? else reader?') fun v => if c then place? v else place?' v := by
  by_cases hc : c
  · simp only [if_pos hc]
    exact h hc
  · simp only [if_neg hc]
    exact h' hc

/-! ## The reader of a shape -/

/-- Takes what stands between the braces of a record. -/
def recordInside (fields : Fields) (depth : Nat) : Reader (fields.Held × Members) := do
  let taken ← members (recordMember depth (fields.member? depth)) (fields.noSlots, [])
  return (← (fields.ofSlots taken.1 : Except Fault _), taken.2)

theorem read_record (name : String) (fields : Fields) (depth : Nat) :
    (Shape.record name fields).read depth = object (.record name) (recordInside fields) depth := by
  rw [Shape.read]
  refine congrArg (fun inside => object (.record name) inside depth) (funext fun inner => ?_)
  unfold recordInside
  -- the two take pairs apart at different places
  refine congrArg₂ (· >>= ·)
    (congrArg (fun member => members member (fields.noSlots, [])) (funext fun key => ?_)) ?_
  · funext taken
    unfold recordMember
    cases hreader : fields.member? inner key taken.1 with
    | none => simp only [hreader]
    | some reader => simp only [hreader]
  · funext taken
    rfl

/-- Once the members are taken, the record holds what is in the slots. -/
theorem gives_recordInside {fields : Fields} {depth : Nat}
    (h : ∀ key slots, Follows depth (fields.member? depth key slots)
      fun v => fields.place? key v slots)
    {input rest : Bytes} {held : fields.Held × Members} :
    Gives (recordInside fields depth) input held rest ↔
    ∃ ms, Gives (members (rawMember (raw depth)) []) input ms rest ∧
      (putAll (putMember fields.place?) ms (fields.noSlots, [])).bind fields.filled? =
        some held := by
  have hmembers := @gives_members_as _ _ _ _ (@memberAs_record _ depth _ _ h) (leaves_raw depth)
  unfold recordInside
  rw [gives_bind]
  refine ⟨?_, ?_⟩
  · intro hr
    obtain ⟨⟨slots, extra⟩, mid, htaken, hr⟩ := hr
    obtain ⟨ms, hms, hput⟩ := hmembers.mp htaken
    obtain ⟨helds, _, hlift, hpure⟩ := gives_bind.mp hr
    obtain ⟨hslots, rfl⟩ := gives_liftM.mp hlift
    obtain ⟨rfl, rfl⟩ := gives_pure.mp hpure
    refine ⟨ms, hms, ?_⟩
    rw [hput, Option.bind_some, Fields.filled?, hslots]
    rfl
  · intro hr
    obtain ⟨ms, hms, hheld⟩ := hr
    obtain ⟨⟨slots, extra⟩, hput, hheld⟩ := Option.bind_eq_some_iff.mp hheld
    obtain ⟨helds, hslots, rfl⟩ := Option.map_eq_some_iff.mp hheld
    refine ⟨(slots, extra), rest, hmembers.mpr ⟨ms, hms, hput⟩, ?_⟩
    cases hof : fields.ofSlots slots with
    | error fault =>
        rw [hof] at hslots
        cases hslots
    | ok helds' =>
        rw [hof] at hslots
        obtain rfl := Option.some.inj hslots
        exact gives_bind.mpr ⟨helds', rest, gives_liftM.mpr ⟨rfl, rfl⟩, gives_pure.mpr ⟨rfl, rfl⟩⟩

mutual

/-- **The reader of a shape holds what the shape makes of the tree.** -/
theorem readsAs_shape (shape : Shape) (depth : Nat) :
    ReadsAs (shape.read depth) (raw depth) shape.ofValue? := by
  match shape with
  | .text => exact @readsAs_text depth
  | .natural => exact @readsAs_natural depth
  | .integer => exact @readsAs_integer depth
  | .real => exact @readsAs_real depth
  | .truth => exact @readsAs_truth depth
  | .table =>
      have hof : Shape.ofValue? .table = fun v => v.members?.bind fun ms =>
          putAll putSettled ms [] := by
        funext v
        cases v with
        | object ms => exact (putAll_putSettled ms []).symm
        | _ => rfl
      rw [hof]
      refine @readsAs_object _ _ _ _ ?_ depth
      intro inner tail rest members
      exact gives_members_as (memberAs_freeMember (readsAs_value inner)) (leaves_raw inner)
  | .counters =>
      refine @readsAs_object _ _ _ _ ?_ depth
      intro inner tail rest counts
      exact gives_members_as (memberAs_counter inner) (leaves_raw inner)
  | .list item =>
      refine @readsAs_array _ _ _ ?_ depth
      intro inner tail rest helds
      exact gives_items_as (readsAs_shape item inner) (shortens_raw inner)
  | .record name fields =>
      rw [read_record]
      refine @readsAs_object _ _ _ _ ?_ depth
      intro inner tail rest held
      exact gives_recordInside (follows_fields fields inner)

/-- Field by field, a member is read as its value is put in. -/
theorem follows_fields (fields : Fields) (depth : Nat) (key : String) (slots : fields.Slots) :
    Follows depth (fields.member? depth key slots) fun v => fields.place? key v slots := by
  match fields, slots with
  | .nil, () => exact fun _ => rfl
  | .cons name presence shape rest, (slot, slots) =>
      refine Follows.ite (fun _ => ⟨_, fun _ => rfl, ?_⟩) fun _ => ?_
      · cases slot with
        | some held => exact @takesMember_taken _ _ depth _ _ held slots
        | none =>
            have h := @readsAs_presence _ _ _ depth (readsAs_shape shape depth) presence
            exact @takesMember_free _ _ _ _ depth h slots
      · exact (follows_fields rest depth key slots).behind slot

end

end Reader

end CrashCourier.Json
