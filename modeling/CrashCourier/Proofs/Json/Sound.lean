import CrashCourier.Proofs.Json.Shape

/-!
# Sound records

The other members of a record are kept apart from the ones it names. What was read is sound: no other
member has the key of a field, no two have one key, and no value of theirs holds a repeated key. Were
it otherwise, writing the record and reading it again would find a field twice, or lose a member.

Reading puts members in one after the other, and each step keeps what has been put in sound
(`sound_ofValue`). Nothing is asked of the text, which may repeat keys at will.
-/

namespace CrashCourier.Json

variable {α σ : Type}

/-- What the member holds, if anything, satisfies `p`. -/
def Presence.All (p : α → Prop) : (presence : Presence) → presence.Holding α → Prop
  | .required, held => p held
  | .optional, held => ∀ a : α, held = some a → p a

/-- The names of the fields. -/
def Fields.names : Fields → List String
  | .nil => []
  | .cons name _ _ rest => name :: rest.names

/-- The members are settled, and none of them is named. -/
structure Members.Other (names : List String) (extra : Members) : Prop where
  settled : Settled extra
  unnamed : ∀ key ∈ keys extra, key ∉ names

mutual

/-- Every record in it keeps its other members apart from the named ones. -/
def Shape.Sound : (shape : Shape) → shape.Held → Prop
  | .text, _ => True
  | .natural, _ => True
  | .integer, _ => True
  | .real, _ => True
  | .truth, _ => True
  | .table, members => Members.Settled members
  | .counters, _ => True
  | .list item, items => ∀ i : item.Held, List.Mem i items → item.Sound i
  | .record _ fields, held => fields.Sound held.1 ∧ Members.Other fields.names held.2

/-- Every named member is sound. -/
def Fields.Sound : (fields : Fields) → fields.Held → Prop
  | .nil, _ => True
  | .cons _ presence shape rest, held => presence.All shape.Sound held.1 ∧ rest.Sound held.2

end

/-- What has come so far is sound. -/
def Fields.SlotsSound : (fields : Fields) → fields.Slots → Prop
  | .nil, _ => True
  | .cons _ presence shape rest, slots =>
    (∀ held ∈ slots.1, presence.All shape.Sound held) ∧ rest.SlotsSound slots.2

/-! ## Other members -/

namespace Members

theorem other_nil (names : List String) : Other names [] :=
  ⟨⟨List.nodup_nil, fun _ h => absurd h List.not_mem_nil⟩, fun _ h => absurd h List.not_mem_nil⟩

theorem Other.set {names : List String} {extra : Members} (h : Other names extra) {key : String}
    (hkey : key ∉ names) (v : Value) : Other names (set key v.settled extra) where
  settled := by
    refine ⟨nodup_keys_set h.settled.1, ?_⟩
    intro m hm
    rcases mem_set hm with rfl | hm
    · exact v.settled_settled
    · exact h.settled.2 m hm
  unnamed := by
    intro k hk
    rw [keys_set] at hk
    split at hk
    · exact h.unnamed k hk
    · rcases List.mem_append.mp hk with hk | hk
      · exact h.unnamed k hk
      · rwa [List.mem_singleton.mp hk]

end Members

/-! ## Named members -/

theorem Presence.all_ofValue {p : α → Prop} {of? : Value → Option α}
    (h : ∀ {v a}, of? v = some a → p a) {presence : Presence} {v : Value}
    {held : presence.Holding α} (hheld : presence.ofValue? of? v = some held) :
    presence.All p held := by
  cases presence with
  | required => exact h hheld
  | optional =>
      intro a ha
      obtain rfl : held = some a := ha
      cases v with
      | null => cases hheld
      | _ =>
          obtain ⟨a', ha', heq⟩ := Option.map_eq_some_iff.mp hheld
          rw [← Option.some.inj heq]
          exact h ha'

section Places

variable {name : String} {presence : Presence} {shape : Shape} {rest : Fields}

/-- The first field takes the values of its name. -/
theorem Fields.place_self (v : Value) (slot : Option (presence.Holding shape.Held))
    (slots : rest.Slots) :
    (Fields.cons name presence shape rest).place? name v (slot, slots) =
      some (putSlot (presence.ofValue? shape.ofValue?) v slots slot) :=
  if_pos rfl

/-- The values of other keys go to the fields behind it. -/
theorem Fields.place_behind {key : String} (h : key ≠ name) (v : Value)
    (slot : Option (presence.Holding shape.Held)) (slots : rest.Slots) :
    (Fields.cons name presence shape rest).place? key v (slot, slots) =
      (rest.place? key v slots).map fun slots? => slots?.map fun slots => (slot, slots) :=
  if_neg h

end Places

/-- A key that no field has is left to the other members. -/
theorem Fields.place_eq_none {fields : Fields} {key : String} {v : Value} {slots : fields.Slots} :
    fields.place? key v slots = none ↔ key ∉ fields.names := by
  match fields, slots with
  | .nil, _ => exact ⟨fun _ => List.not_mem_nil, fun _ => rfl⟩
  | .cons name presence shape rest, taken =>
      obtain ⟨slot, slots⟩ := taken
      unfold Fields.names
      by_cases hkey : key = name
      · subst hkey
        refine ⟨fun h => ?_, fun h => absurd List.mem_cons_self h⟩
        cases (Fields.place_self v slot slots).symm.trans h
      · rw [Fields.place_behind hkey, List.mem_cons, not_or]
        refine Option.map_eq_none_iff.trans (Fields.place_eq_none.trans ?_)
        exact ⟨fun h => ⟨hkey, h⟩, fun h => h.2⟩

theorem Fields.slotsSound_noSlots (fields : Fields) : fields.SlotsSound fields.noSlots := by
  match fields with
  | .nil => exact trivial
  | .cons name presence shape rest =>
      exact ⟨fun _ h => (nomatch h), rest.slotsSound_noSlots⟩

theorem Fields.sound_ofSlots {fields : Fields} {slots : fields.Slots} {held : fields.Held}
    (h : fields.SlotsSound slots) (hheld : fields.ofSlots slots = .ok held) :
    fields.Sound held := by
  match fields, slots, h with
  | .nil, (), _ => exact trivial
  | .cons name .optional shape rest, (slot, slots), ⟨hslot, hslots⟩ =>
      cases hrest : rest.ofSlots slots with
      | error fault =>
          rw [Fields.ofSlots, hrest] at hheld
          cases hheld
      | ok helds =>
          rw [Fields.ofSlots, hrest] at hheld
          cases hheld
          refine ⟨fun a ha => ?_, Fields.sound_ofSlots hslots hrest⟩
          exact hslot (some a) (Option.join_eq_some_iff.mp ha) a rfl
  -- a required field that was not met is a fault
  | .cons name .required shape rest, (none, slots), _ => cases hheld
  | .cons name .required shape rest, (some a, slots), ⟨hslot, hslots⟩ =>
      cases hrest : rest.ofSlots slots with
      | error fault =>
          rw [Fields.ofSlots, hrest] at hheld
          cases hheld
      | ok helds =>
          rw [Fields.ofSlots, hrest] at hheld
          cases hheld
          exact ⟨hslot a rfl, Fields.sound_ofSlots hslots hrest⟩

/-! ## What was read -/

/-- What one member keeps, all members keep. -/
theorem Reader.putAll_preserves {put : String → Value → σ → Option σ} {p : σ → Prop}
    (h : ∀ {key v s t}, put key v s = some t → p s → p t) {ms : List (String × Value)} {s t : σ}
    (hput : Reader.putAll put ms s = some t) (hs : p s) : p t := by
  induction ms generalizing s with
  | nil =>
      obtain rfl : s = t := Option.some.inj hput
      exact hs
  | cons m ms ih =>
      obtain ⟨s', hfirst, hrest⟩ := Option.bind_eq_some_iff.mp hput
      exact ih hrest (h hfirst hs)

/-- What holds of whatever is made of one value holds of all that is made of many. -/
theorem mem_of_mapM {of? : Value → Option α} {p : α → Prop} (h : ∀ {v a}, of? v = some a → p a)
    {vs : List Value} {as : List α} (has : vs.mapM of? = some as) : ∀ a ∈ as, p a := by
  induction vs generalizing as with
  | nil =>
      obtain rfl : as = [] := (Option.some.inj has).symm
      exact fun a ha => absurd ha List.not_mem_nil
  | cons v vs ih =>
      rw [List.mapM_cons] at has
      obtain ⟨a, hof, has⟩ := Option.bind_eq_some_iff.mp has
      obtain ⟨as', hrest, heq⟩ := Option.bind_eq_some_iff.mp has
      obtain rfl := Option.some.inj heq
      intro a' ha'
      rcases List.mem_cons.mp ha' with rfl | ha'
      · exact h hof
      · exact ih hrest a' ha'

/-- A member that is put in leaves the record sound. -/
theorem Members.other_putMember {names : List String} {place? : String → Value → σ → Option (Option σ)}
    {p : σ → Prop} (hnone : ∀ {key v s}, place? key v s = none → key ∉ names)
    (hsome : ∀ {key v s t}, place? key v s = some (some t) → p s → p t)
    {key : String} {v : Value} {s t : σ × Members} (hput : putMember place? key v s = some t)
    (hs : p s.1 ∧ Other names s.2) : p t.1 ∧ Other names t.2 := by
  obtain ⟨slots, extra⟩ := s
  cases hplace : place? key v slots with
  | none =>
      rw [putMember_of_none hplace] at hput
      obtain rfl := Option.some.inj hput
      exact ⟨hs.1, hs.2.set (hnone hplace) v⟩
  | some slots? =>
      rw [putMember_of_some hplace] at hput
      obtain ⟨slots', rfl, rfl⟩ := Option.map_eq_some_iff.mp hput
      exact ⟨hsome hplace hs.1, hs.2⟩

mutual

/-- **What was read is sound.** -/
theorem sound_ofValue (shape : Shape) {v : Value} {held : shape.Held}
    (h : shape.ofValue? v = some held) : shape.Sound held := by
  match shape with
  | .text | .natural | .integer | .real | .truth | .counters => exact trivial
  | .table =>
      obtain ⟨ms, _, rfl⟩ := Option.map_eq_some_iff.mp h
      exact Members.settled_collected ms
  | .list item =>
      obtain ⟨vs, _, hvs⟩ := Option.bind_eq_some_iff.mp h
      exact mem_of_mapM (fun hv => sound_ofValue item hv) hvs
  | .record name fields =>
      obtain ⟨ms, _, hms⟩ := Option.bind_eq_some_iff.mp h
      obtain ⟨⟨slots, extra⟩, hput, hfilled⟩ := Option.bind_eq_some_iff.mp hms
      obtain ⟨helds, hslots, rfl⟩ := Option.map_eq_some_iff.mp hfilled
      -- the invariant of the loop over the members: the slots are sound and no other key is a name
      have hsound := Reader.putAll_preserves
        (Members.other_putMember Fields.place_eq_none.mp (sound_place fields)) hput
        ⟨fields.slotsSound_noSlots, Members.other_nil fields.names⟩
      cases hof : fields.ofSlots slots with
      | error fault =>
          rw [hof] at hslots
          cases hslots
      | ok helds' =>
          rw [hof] at hslots
          obtain rfl := Option.some.inj hslots
          exact ⟨Fields.sound_ofSlots hsound.1 hof, hsound.2⟩

/-- A value that is put into its slot leaves the slots sound. -/
theorem sound_place (fields : Fields) {key : String} {v : Value} {slots slots' : fields.Slots}
    (h : fields.place? key v slots = some (some slots')) (hs : fields.SlotsSound slots) :
    fields.SlotsSound slots' := by
  match fields, slots, hs with
  | .nil, (), _ => cases h
  | .cons name presence shape rest, (slot, slots), ⟨hslot, hslots⟩ =>
      by_cases hkey : key = name
      · subst hkey
        have hput := Option.some.inj ((Fields.place_self v slot slots).symm.trans h)
        cases slot with
        | some held => cases hput
        | none =>
            obtain ⟨held, hheld, rfl⟩ := Option.map_eq_some_iff.mp hput
            refine ⟨fun held' heq => ?_, hslots⟩
            obtain rfl := Option.some.inj heq
            exact Presence.all_ofValue (fun hv => sound_ofValue shape hv) hheld
      · have hput := (Fields.place_behind hkey v slot slots).symm.trans h
        obtain ⟨slots?, hplace, hmap⟩ := Option.map_eq_some_iff.mp hput
        obtain ⟨slots'', rfl, rfl⟩ := Option.map_eq_some_iff.mp hmap
        exact ⟨hslot, sound_place rest hplace hslots⟩

end

/-! ## Equality -/

namespace Members

/-- Where the keys differ, a member is what its key finds. -/
theorem get_of_mem {members : Members} (h : (keys members).Nodup) {m : String × Value}
    (hm : m ∈ members) : get? m.1 members = some m.2 := by
  induction members with
  | nil => exact absurd hm List.not_mem_nil
  | cons head rest ih =>
      obtain ⟨k, v⟩ := head
      obtain ⟨hk, hrest⟩ := List.nodup_cons.mp h
      rw [get?]
      by_cases heq : k = m.1
      · rw [if_pos heq]
        rcases List.mem_cons.mp hm with rfl | hm
        · rfl
        · have hmem : m.1 ∈ keys rest := List.mem_map_of_mem hm
          rw [← heq] at hmem
          exact absurd hmem hk
      · rw [if_neg heq]
        rcases List.mem_cons.mp hm with rfl | hm
        · exact absurd rfl heq
        · exact ih hrest hm

/-- The members of a settled object are settled. -/
theorem settled_of_object {members : List (String × Value)}
    (h : (Value.object members).settled = .object members) : Settled members := by
  have hcollected : collected (settledMembers members) = members := Value.object.inj h
  rw [← hcollected]
  exact settled_collected members

end Members

theorem settled_of_list {items : List Value} (h : (Value.list items).settled = .list items) :
    ∀ v ∈ items, v.settled = v := by
  have hitems : settledItems items = items := Value.list.inj h
  rw [settledItems_eq_map] at hitems
  exact List.map_inj_left.mp (hitems.trans (List.map_id items).symm)

theorem Binary64.same_self (x : Binary64) : x.same x = true := by
  unfold Binary64.same
  simp

theorem Number.same_self (n : Number) : n.same n = true := by
  cases n with
  | natural n => exact beq_self_eq_true n
  | negative n => exact beq_self_eq_true n.magnitude
  | real x => exact Binary64.same_self x

mutual

/-- A settled value is the same as itself. -/
theorem Value.same_self {v : Value} (h : v.settled = v) : v.same v = true := by
  match v with
  | .null => rfl
  | .truth b => exact beq_self_eq_true b
  | .number n => exact n.same_self
  | .text s => exact beq_self_eq_true s
  | .list items =>
      rw [Value.same]
      exact sameItems_self (settled_of_list h)
  | .object members =>
      have hsettled := Members.settled_of_object h
      rw [Value.same, beq_self_eq_true, Bool.true_and]
      exact sameMembers_self fun m hm => ⟨hsettled.2 m hm, Members.get_of_mem hsettled.1 hm⟩

theorem sameItems_self {items : List Value} (h : ∀ v ∈ items, v.settled = v) :
    sameItems items items = true := by
  match items with
  | [] => rfl
  | v :: rest =>
      rw [sameItems, Value.same_self (h v List.mem_cons_self),
        sameItems_self fun v hv => h v (List.mem_cons_of_mem _ hv)]
      rfl

theorem sameMembers_self {ms members : List (String × Value)}
    (h : ∀ m ∈ ms, m.2.settled = m.2 ∧ Members.get? m.1 members = some m.2) :
    sameMembers ms members = true := by
  match ms with
  | [] => rfl
  | (k, v) :: rest =>
      have hv : v.settled = v := (h (k, v) List.mem_cons_self).1
      have hget : Members.get? k members = some v := (h (k, v) List.mem_cons_self).2
      have hrest := sameMembers_self fun m hm => h m (List.mem_cons_of_mem _ hm)
      rw [sameMembers, hget, hrest]
      exact Bool.and_eq_true_iff.mpr ⟨Value.same_self hv, rfl⟩

end

theorem Members.same_self {members : Members} (h : Settled members) :
    Members.same members members = true := by
  unfold Members.same
  rw [beq_self_eq_true, Bool.true_and]
  exact sameMembers_self fun m hm => ⟨h.2 m hm, get_of_mem h.1 hm⟩

theorem Presence.same_self {same : α → α → Bool} {presence : Presence} {held : presence.Holding α}
    (h : presence.All (fun a => same a a = true) held) : presence.same same held held = true := by
  match presence, held with
  | .required, a => exact h
  | .optional, none => rfl
  | .optional, some a => exact h a rfl

theorem sameList_self {same : α → α → Bool} {items : List α} (h : ∀ i ∈ items, same i i = true) :
    sameList same items items = true := by
  induction items with
  | nil => rfl
  | cons i items ih =>
      rw [sameList, h i List.mem_cons_self, ih fun i hi => h i (List.mem_cons_of_mem _ hi)]
      rfl

theorem Presence.All.imp {p q : α → Prop} {presence : Presence} {held : presence.Holding α}
    (h : ∀ a, p a → q a) (hp : presence.All p held) : presence.All q held := by
  cases presence with
  | required => exact h held hp
  | optional => exact fun a ha => h a (hp a ha)

mutual

/-- **What is sound is the same as itself.** -/
theorem same_self (shape : Shape) {held : shape.Held} (h : shape.Sound held) :
    shape.same held held = true := by
  match shape with
  | .text => exact beq_self_eq_true (α := String) held
  | .natural => exact beq_self_eq_true (α := UInt64) held
  | .integer => exact beq_self_eq_true (α := Int64) held
  | .real => exact Binary64.same_self held
  | .truth => exact beq_self_eq_true (α := Bool) held
  | .table => exact Members.same_self h
  | .counters => exact beq_self_eq_true (α := Table UInt64) held
  | .list item => exact sameList_self fun i hi => same_self item (h i hi)
  | .record name fields =>
      obtain ⟨hsound, hother⟩ := h
      exact Bool.and_eq_true_iff.mpr
        ⟨same_self_fields fields hsound, Members.same_self hother.settled⟩

theorem same_self_fields (fields : Fields) {held : fields.Held} (h : fields.Sound held) :
    fields.same held held = true := by
  match fields with
  | .nil => rfl
  | .cons name presence shape rest =>
      obtain ⟨hfirst, hrest⟩ := h
      exact Bool.and_eq_true_iff.mpr ⟨Presence.same_self (hfirst.imp fun _ h => same_self shape h),
        same_self_fields rest hrest⟩

end

end CrashCourier.Json
