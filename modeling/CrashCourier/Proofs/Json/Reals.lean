import CrashCourier.Proofs.Json.Document

/-!
# Other numbers in the place of numbers

A function of binary64 numbers changes a value number by number, and what a shape holds in the same way.
Nothing else about the value changes: no key, no kind of value and no order. So a settled value stays
settled, sound parts stay sound, and the tree of what was changed is the changed tree.
-/

namespace CrashCourier.Json

variable {f : Binary64 → Binary64}

/-! ## Values -/

/-- The number with its binary64 number changed, if it is one. -/
def Number.onReals (f : Binary64 → Binary64) : Number → Number
  | .real x => .real (f x)
  | n => n

mutual

/-- The value with its binary64 numbers changed. -/
def Value.onReals (f : Binary64 → Binary64) : Value → Value
  | .null => .null
  | .truth b => .truth b
  | .number n => .number (n.onReals f)
  | .text s => .text s
  | .list items => .list (itemsOnReals f items)
  | .object members => .object (membersOnReals f members)

/-- The items of an array with their binary64 numbers changed. -/
def itemsOnReals (f : Binary64 → Binary64) : List Value → List Value
  | [] => []
  | v :: rest => v.onReals f :: itemsOnReals f rest

/-- The members of an object with their binary64 numbers changed. -/
def membersOnReals (f : Binary64 → Binary64) : List (String × Value) → List (String × Value)
  | [] => []
  | (k, v) :: rest => (k, v.onReals f) :: membersOnReals f rest

end

theorem itemsOnReals_eq_map (items : List Value) :
    itemsOnReals f items = items.map (Value.onReals f) := by
  induction items with
  | nil => rfl
  | cons v rest ih => rw [itemsOnReals, ih, List.map_cons]

theorem membersOnReals_eq_map (members : List (String × Value)) :
    membersOnReals f members = members.map fun m => (m.1, m.2.onReals f) := by
  induction members with
  | nil => rfl
  | cons m rest ih => rw [membersOnReals, ih, List.map_cons]

theorem membersOnReals_append (ms ms' : List (String × Value)) :
    membersOnReals f (ms ++ ms') = membersOnReals f ms ++ membersOnReals f ms' := by
  rw [membersOnReals_eq_map, membersOnReals_eq_map, membersOnReals_eq_map, List.map_append]

theorem keys_membersOnReals (members : List (String × Value)) :
    Members.keys (membersOnReals f members) = Members.keys members := by
  rw [membersOnReals_eq_map, Members.keys, Members.keys, List.map_map]
  rfl

mutual

/-- The changed numbers, in order. -/
theorem reals_onReals (v : Value) : (v.onReals f).reals = v.reals.map f := by
  match v with
  | .null | .truth _ | .text _ => rfl
  | .number n =>
      rw [Value.onReals, Value.reals, Value.reals]
      cases n with
      | natural n => rfl
      | negative n => rfl
      | real x => rfl
  | .list items =>
      rw [Value.onReals, Value.reals, Value.reals]
      exact realsOfItems_onReals items
  | .object members =>
      rw [Value.onReals, Value.reals, Value.reals]
      exact realsOfMembers_onReals members

theorem realsOfItems_onReals (items : List Value) :
    realsOfItems (itemsOnReals f items) = (realsOfItems items).map f := by
  match items with
  | [] => rfl
  | v :: rest =>
      rw [itemsOnReals, realsOfItems, realsOfItems, List.map_append, reals_onReals v,
        realsOfItems_onReals rest]

theorem realsOfMembers_onReals (members : List (String × Value)) :
    realsOfMembers (membersOnReals f members) = (realsOfMembers members).map f := by
  match members with
  | [] => rfl
  | (k, v) :: rest =>
      rw [membersOnReals, realsOfMembers, realsOfMembers, List.map_append, reals_onReals v,
        realsOfMembers_onReals rest]

end

/-! ### Repeated keys -/

theorem set_membersOnReals (key : String) (v : Value) (members : Members) :
    Members.set key (v.onReals f) (membersOnReals f members) =
      membersOnReals f (Members.set key v members) := by
  induction members with
  | nil => rfl
  | cons head rest ih =>
      obtain ⟨k, w⟩ := head
      rw [membersOnReals, Members.set, Members.set]
      by_cases hk : k = key
      · rw [if_pos hk, if_pos hk, membersOnReals]
      · rw [if_neg hk, if_neg hk, membersOnReals, ih]

theorem foldl_set_membersOnReals (members taken : List (String × Value)) :
    (membersOnReals f members).foldl (fun taken m => Members.set m.1 m.2 taken)
        (membersOnReals f taken) =
      membersOnReals f (members.foldl (fun taken m => Members.set m.1 m.2 taken) taken) := by
  induction members generalizing taken with
  | nil => rfl
  | cons head rest ih =>
      obtain ⟨k, v⟩ := head
      rw [membersOnReals, List.foldl_cons, List.foldl_cons, set_membersOnReals, ih]

/-- Keys alone decide what is collected. -/
theorem collected_membersOnReals (members : List (String × Value)) :
    Members.collected (membersOnReals f members) = membersOnReals f (Members.collected members) :=
  foldl_set_membersOnReals members []

mutual

theorem settled_onReals (v : Value) : (v.onReals f).settled = v.settled.onReals f := by
  match v with
  | .null | .truth _ | .text _ | .number _ => rfl
  | .list items =>
      rw [Value.onReals, Value.settled, Value.settled, Value.onReals, settledItems_onReals items]
  | .object members =>
      rw [Value.onReals, Value.settled, Value.settled, Value.onReals,
        settledMembers_onReals members, collected_membersOnReals]

theorem settledItems_onReals (items : List Value) :
    settledItems (itemsOnReals f items) = itemsOnReals f (settledItems items) := by
  match items with
  | [] => rfl
  | v :: rest =>
      rw [itemsOnReals, settledItems, settledItems, itemsOnReals, settled_onReals v,
        settledItems_onReals rest]

theorem settledMembers_onReals (members : List (String × Value)) :
    settledMembers (membersOnReals f members) = membersOnReals f (settledMembers members) := by
  match members with
  | [] => rfl
  | (k, v) :: rest =>
      rw [membersOnReals, settledMembers, settledMembers, membersOnReals, settled_onReals v,
        settledMembers_onReals rest]

end

theorem Members.Settled.onReals {members : Members} (h : Settled members) :
    Settled (membersOnReals f members) := by
  refine ⟨(keys_membersOnReals members).symm ▸ h.1, ?_⟩
  intro m hm
  rw [membersOnReals_eq_map] at hm
  obtain ⟨m', hm', rfl⟩ := List.mem_map.mp hm
  dsimp only
  rw [settled_onReals, h.2 m' hm']

theorem Members.Other.onReals {names : List String} {extra : Members} (h : Other names extra) :
    Other names (membersOnReals f extra) where
  settled := h.settled.onReals
  unnamed := by
    rw [keys_membersOnReals]
    exact h.unnamed

/-! ## What shapes hold -/

/-- What the member holds, changed. -/
def Presence.onHolding {α : Type} (g : α → α) :
    (presence : Presence) → presence.Holding α → presence.Holding α
  | .required, held => g held
  | .optional, held => Option.map g held

mutual

/-- What a shape holds, with its binary64 numbers changed. -/
def Shape.onReals (f : Binary64 → Binary64) : (shape : Shape) → shape.Held → shape.Held
  | .text, s => s
  | .natural, n => n
  | .integer, i => i
  | .real, x => f x
  | .truth, b => b
  | .table, members => membersOnReals f members
  | .counters, table => table
  | .list item, items => List.map (item.onReals f) items
  | .record _ fields, held => (fields.onReals f held.1, membersOnReals f held.2)

/-- What the named members of a record hold, changed. -/
def Fields.onReals (f : Binary64 → Binary64) : (fields : Fields) → fields.Held → fields.Held
  | .nil, held => held
  | .cons _ presence shape rest, held =>
    (presence.onHolding (shape.onReals f) held.1, rest.onReals f held.2)

end

theorem Number.onReals_ofInteger (i : Int64) : (ofInteger i).onReals f = ofInteger i := by
  unfold ofInteger
  split
  · rfl
  · rfl

theorem Presence.toMembers_onHolding {α : Type} {g : α → α} {toValue : α → Value}
    (h : ∀ a, toValue (g a) = (toValue a).onReals f) (name : String) (presence : Presence)
    (held : presence.Holding α) :
    presence.toMembers name toValue (presence.onHolding g held) =
      membersOnReals f (presence.toMembers name toValue held) := by
  match presence, held with
  | .required, a => exact congrArg (fun v => [(name, v)]) (h a)
  | .optional, some a => exact congrArg (fun v => [(name, v)]) (h a)
  | .optional, none => rfl

mutual

/-- **The tree of what was changed is the changed tree.** -/
theorem toValue_onReals (shape : Shape) (held : shape.Held) :
    shape.toValue (shape.onReals f held) = (shape.toValue held).onReals f := by
  match shape with
  | .text | .natural | .real | .truth | .table => rfl
  | .integer => exact congrArg Value.number (Number.onReals_ofInteger held).symm
  | .counters =>
      refine congrArg Value.object ?_
      rw [membersOnReals_eq_map, List.map_map]
      rfl
  | .list item =>
      have hitems (items : List item.Held) : (items.map (item.onReals f)).map item.toValue =
          itemsOnReals f (items.map item.toValue) := by
        rw [itemsOnReals_eq_map, List.map_map, List.map_map]
        exact List.map_congr_left fun i _ => toValue_onReals item i
      exact congrArg Value.list (hitems held)
  | .record name fields =>
      have hmembers : fields.toMembers (fields.onReals f held.1) ++ membersOnReals f held.2 =
          membersOnReals f (fields.toMembers held.1 ++ held.2) := by
        rw [membersOnReals_append, toMembers_onReals fields held.1]
      exact congrArg Value.object hmembers

theorem toMembers_onReals (fields : Fields) (held : fields.Held) :
    fields.toMembers (fields.onReals f held) = membersOnReals f (fields.toMembers held) := by
  match fields with
  | .nil => rfl
  | .cons name presence shape rest =>
      have hfirst := Presence.toMembers_onHolding (toValue_onReals shape) name presence held.1
      have hrest := toMembers_onReals rest held.2
      refine (congrArg₂ (· ++ ·) hfirst hrest).trans ?_
      exact (membersOnReals_append _ _).symm

end

mutual

/-- **What is sound stays sound.** -/
theorem sound_onReals (shape : Shape) {held : shape.Held} (h : shape.Sound held) :
    shape.Sound (shape.onReals f held) := by
  match shape with
  | .text | .natural | .integer | .real | .truth | .counters => exact trivial
  | .table => exact Members.Settled.onReals h
  | .list item =>
      intro i hi
      obtain ⟨j, hj, rfl⟩ := List.mem_map.mp hi
      exact sound_onReals item (h j hj)
  | .record name fields => exact ⟨sound_onReals_fields fields h.1, h.2.onReals⟩

theorem sound_onReals_fields (fields : Fields) {held : fields.Held} (h : fields.Sound held) :
    fields.Sound (fields.onReals f held) := by
  match fields with
  | .nil => exact trivial
  | .cons name presence shape rest =>
      refine ⟨?_, sound_onReals_fields rest h.2⟩
      match presence, held, h with
      | .required, held, h => exact sound_onReals shape h.1
      | .optional, held, h =>
          intro a ha
          obtain ⟨b, hb, rfl⟩ := Option.map_eq_some_iff.mp ha
          exact sound_onReals shape (h.1 b hb)

end

end CrashCourier.Json
