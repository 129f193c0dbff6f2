import CrashCourier.Proofs.Json.Gathered

/-!
# What a shape asks for

A shape is a schema. `Shape.Fits` says what it asks of a value, and `Shape.Holds` what it holds of one
that fits: both look at the value as a tree and at each name by itself, and neither knows in which order
members come. The reader of a shape takes the members one after the other, each into a slot that may be
taken already, and asks at the end whether a slot is missing. The two agree (`ofValue?_iff`,
`fits_iff`).

The argument goes field by field. All that the slot of the first field sees are the members of its name,
and the fields behind it see the others (`putAll_cons_iff`).
-/

namespace CrashCourier.Json

variable {α : Type}

/-! ## The schema -/

/-- The value is a whole number from `low` on and below `high`. -/
def Value.IsWholeIn (v : Value) (low high : Int) : Prop :=
  ∃ z, v.IsWhole z ∧ low ≤ z ∧ z < high

/-- What a field asks of the values of its name: that there is one, and that it fits. An optional one
may be missing or `null`. -/
def Presence.Fits (fits : Value → Prop) : Presence → List Value → Prop
  | .required, vs => ∃ v, vs = [v] ∧ fits v
  | .optional, vs => vs = [] ∨ ∃ v, vs = [v] ∧ (v = .null ∨ fits v)

mutual

/-- What a shape asks of a value. -/
def Shape.Fits : Shape → Value → Prop
  | .text, v => ∃ s, v = .text s
  | .natural, v => v.IsWholeIn 0 (2 ^ 64)
  | .integer, v => v.IsWholeIn (-(2 ^ 63)) (2 ^ 63)
  | .real, v => ∃ n, v = .number n
  | .truth, v => ∃ b, v = .truth b
  | .table, v => ∃ ms, v = .object ms
  | .counters, v => ∃ ms, v = .object ms ∧ ∀ m ∈ ms, m.2.IsWholeIn 0 (2 ^ 64)
  | .list item, v => ∃ vs, v = .list vs ∧ ∀ w ∈ vs, item.Fits w
  | .record _ fields, v => ∃ ms, v = .object ms ∧ fields.Fit ms

/-- What the fields of a record ask of its members. Members that no field names may be anything. -/
def Fields.Fit : Fields → Members → Prop
  | .nil, _ => True
  | .cons name presence shape rest, ms =>
    presence.Fits shape.Fits (Members.valuesOf name ms) ∧ rest.Fit ms

end

/-- What a field holds of the values of its name. -/
def Presence.Holds (holds : Value → α → Prop) :
    (presence : Presence) → List Value → presence.Holding α → Prop
  | .required, vs, a => ∃ v, vs = [v] ∧ holds v a
  | .optional, vs, none => vs = [] ∨ vs = [.null]
  | .optional, vs, some a => ∃ v, vs = [v] ∧ holds v a

mutual

/-- What a shape holds of a value. -/
def Shape.Holds : (shape : Shape) → Value → shape.Held → Prop
  | .text, v, s => v = .text s
  | .natural, v, n => v.IsWhole (UInt64.toNat n)
  | .integer, v, i => v.IsWhole (Int64.toInt i)
  | .real, v, x => ∃ n, v = .number n ∧ n.nearest = x
  | .truth, v, b => v = .truth b
  | .table, v, extra => ∃ ms, v = .object ms ∧ Members.Gathers ms extra
  | .counters, v, t => ∃ ms, v = .object ms ∧ Members.Counts ms t
  | .list item, v, helds => ∃ vs, v = .list vs ∧ List.Forall₂ item.Holds vs helds
  | .record _ fields, v, held =>
    ∃ ms, v = .object ms ∧ fields.Hold ms held.1 ∧
      Members.Gathers (ms.filter fun m => m.1 ∉ fields.names) held.2

/-- What the fields of a record hold of its members. -/
def Fields.Hold : (fields : Fields) → Members → fields.Held → Prop
  | .nil, _, _ => True
  | .cons name presence shape rest, ms, helds =>
    presence.Holds shape.Holds (Members.valuesOf name ms) helds.1 ∧ rest.Hold ms helds.2

end

/-! ## What fits is held -/

theorem isWholeIn_natural {v : Value} :
    v.IsWholeIn 0 (2 ^ 64) ↔ ∃ n : UInt64, v.IsWhole n.toNat := by
  constructor
  · rintro ⟨z, hz, hlow, hhigh⟩
    have hlt : z.toNat < 2 ^ 64 := by omega
    refine ⟨UInt64.ofNat z.toNat, ?_⟩
    rw [UInt64.toNat_ofNat_of_lt' hlt, Int.toNat_of_nonneg hlow]
    exact hz
  · rintro ⟨n, hn⟩
    have hlt := n.toNat_lt
    exact ⟨n.toNat, hn, by omega, by omega⟩

theorem isWholeIn_integer {v : Value} :
    v.IsWholeIn (-(2 ^ 63)) (2 ^ 63) ↔ ∃ i : Int64, v.IsWhole i.toInt := by
  constructor
  · rintro ⟨z, hz, hlow, hhigh⟩
    refine ⟨Int64.ofInt z, ?_⟩
    rw [Int64.toInt_ofInt_of_le (by omega) (by omega)]
    exact hz
  · rintro ⟨i, hi⟩
    exact ⟨i.toInt, hi, i.le_toInt, i.toInt_lt⟩

theorem Presence.fits_iff {fits : Value → Prop} {holds : Value → α → Prop}
    (h : ∀ v, fits v ↔ ∃ a, holds v a) (presence : Presence) (vs : List Value) :
    presence.Fits fits vs ↔ ∃ held, presence.Holds holds vs held := by
  cases presence with
  | required =>
      constructor
      · rintro ⟨v, hvs, hv⟩
        obtain ⟨a, ha⟩ := (h v).mp hv
        exact ⟨a, v, hvs, ha⟩
      · rintro ⟨a, v, hvs, ha⟩
        exact ⟨v, hvs, (h v).mpr ⟨a, ha⟩⟩
  | optional =>
      constructor
      · rintro (hnil | ⟨v, rfl, rfl | hv⟩)
        · exact ⟨none, .inl hnil⟩
        · exact ⟨none, .inr rfl⟩
        · obtain ⟨a, ha⟩ := (h v).mp hv
          exact ⟨some a, v, rfl, ha⟩
      · rintro ⟨_ | a, hheld⟩
        · exact hheld.imp_right fun hnull => ⟨_, hnull, .inl rfl⟩
        · obtain ⟨v, hvs, ha⟩ := hheld
          exact .inr ⟨v, hvs, .inr ((h v).mpr ⟨a, ha⟩)⟩

theorem forall_mem_iff_forall₂ {fits : Value → Prop} {holds : Value → α → Prop}
    (h : ∀ v, fits v ↔ ∃ a, holds v a) (vs : List Value) :
    (∀ v ∈ vs, fits v) ↔ ∃ helds, List.Forall₂ holds vs helds := by
  induction vs with
  | nil => exact ⟨fun _ => ⟨[], .nil⟩, fun _ v hv => absurd hv List.not_mem_nil⟩
  | cons v vs ih =>
      rw [List.forall_mem_cons, h, ih]
      constructor
      · rintro ⟨⟨a, ha⟩, helds, hhelds⟩
        exact ⟨a :: helds, .cons ha hhelds⟩
      · rintro ⟨helds, hhelds⟩
        cases hhelds with
        | cons ha hrest => exact ⟨⟨_, ha⟩, _, hrest⟩

mutual

/-- **A value fits a shape if and only if the shape holds something of it.** -/
theorem fits_iff (shape : Shape) (v : Value) : shape.Fits v ↔ ∃ held, shape.Holds v held := by
  match shape with
  | .text => exact Iff.rfl
  | .natural => exact isWholeIn_natural
  | .integer => exact isWholeIn_integer
  | .real =>
      constructor
      · rintro ⟨n, hn⟩
        exact ⟨n.nearest, n, hn, rfl⟩
      · rintro ⟨_, n, hn, _⟩
        exact ⟨n, hn⟩
  | .truth => exact Iff.rfl
  | .table =>
      constructor
      · rintro ⟨ms, hms⟩
        exact ⟨_, ms, hms, Members.gathers_collected ms⟩
      · rintro ⟨_, ms, hms, _⟩
        exact ⟨ms, hms⟩
  | .counters =>
      constructor
      · rintro ⟨ms, hms, hnatural⟩
        obtain ⟨t, ht⟩ := Members.exists_putAll_putCount
          (fun m hm => isWholeIn_natural.mp (hnatural m hm)) Table.empty
        exact ⟨t, ms, hms, Members.counts_iff.mpr ht⟩
      · rintro ⟨_, ms, hms, hcounts⟩
        exact ⟨ms, hms, fun m hm => isWholeIn_natural.mpr (hcounts.natural m hm)⟩
  | .list item =>
      have hitems := forall_mem_iff_forall₂ (fits_iff item)
      constructor
      · rintro ⟨vs, hvs, hfit⟩
        obtain ⟨helds, hhelds⟩ := (hitems vs).mp hfit
        exact ⟨helds, vs, hvs, hhelds⟩
      · rintro ⟨helds, vs, hvs, hhelds⟩
        exact ⟨vs, hvs, (hitems vs).mpr ⟨helds, hhelds⟩⟩
  | .record name fields =>
      constructor
      · rintro ⟨ms, hms, hfit⟩
        obtain ⟨helds, hhelds⟩ := (fit_iff fields ms).mp hfit
        exact ⟨(helds, _), ms, hms, hhelds, Members.gathers_collected _⟩
      · rintro ⟨held, ms, hms, hhelds, _⟩
        exact ⟨ms, hms, (fit_iff fields ms).mpr ⟨held.1, hhelds⟩⟩

theorem fit_iff (fields : Fields) (ms : Members) : fields.Fit ms ↔ ∃ helds, fields.Hold ms helds := by
  match fields with
  | .nil => exact ⟨fun _ => ⟨(), trivial⟩, fun _ => trivial⟩
  | .cons name presence shape rest =>
      have hfirst := presence.fits_iff (fits_iff shape) (Members.valuesOf name ms)
      constructor
      · rintro ⟨hfit, hrest⟩
        obtain ⟨held, hheld⟩ := hfirst.mp hfit
        obtain ⟨helds, hhelds⟩ := (fit_iff rest ms).mp hrest
        exact ⟨(held, helds), hheld, hhelds⟩
      · rintro ⟨helds, hheld, hrest⟩
        exact ⟨hfirst.mpr ⟨helds.1, hheld⟩, (fit_iff rest ms).mpr ⟨helds.2, hrest⟩⟩

end

/-! ## What is read is held -/

section Records

variable {name : String} {presence : Presence} {shape : Shape} {rest : Fields}

/-- The first slot takes the one member of its name, and the others go past it. -/
theorem putAll_cons_of {ms : Members} {slot slot' : Option (presence.Holding shape.Held)}
    {slots slots' : rest.Slots} {extra extra' : Members}
    (hslot : SlotAfter name (presence.ofValue? shape.ofValue?) slot
      (ms.filter fun m => m.1 = name) slot')
    (hrest : Reader.putAll (putMember rest.place?) (ms.filter fun m => m.1 ≠ name) (slots, extra) =
      some (slots', extra')) :
    Reader.putAll (putMember (Fields.cons name presence shape rest).place?) ms
      ((slot, slots), extra) = some ((slot', slots'), extra') := by
  induction ms generalizing slot slots extra with
  | nil =>
      cases hrest
      cases hslot
      rfl
  | cons m ms ih =>
      obtain ⟨key, v⟩ := m
      by_cases hkey : key = name
      · subst hkey
        rw [List.filter_cons_of_pos (by simp)] at hslot
        rw [List.filter_cons_of_neg (by simp)] at hrest
        generalize hnamed : (ms.filter fun m => decide (m.1 = key)) = named at hslot
        cases hslot with
        | @put _ held hheld =>
            have hput : putSlot (presence.ofValue? shape.ofValue?) v slots none =
                some (some held, slots) := congrArg (Option.map _) hheld
            have hplace : (Fields.cons key presence shape rest).place? key v (none, slots) = _ :=
              (Fields.place_self v none slots).trans (congrArg some hput)
            refine (congrArg (fun s => Option.bind s _) (putMember_of_some hplace extra)).trans ?_
            exact ih (hnamed ▸ .kept) hrest
      · rw [List.filter_cons_of_neg (by simpa using hkey)] at hslot
        rw [List.filter_cons_of_pos (by simpa using hkey)] at hrest
        obtain ⟨⟨slots₁, extra₁⟩, hput, hrest⟩ := Option.bind_eq_some_iff.mp hrest
        have hbehind := @putMember_behind name presence shape rest key hkey v slot slots extra
        rw [hput] at hbehind
        refine (congrArg (fun s => Option.bind s _) hbehind).trans ?_
        exact ih hslot hrest

theorem ofSlots_cons_of {slot : Option (presence.Holding shape.Held)} {slots : rest.Slots}
    {held : presence.Holding shape.Held} {helds : rest.Held}
    (hslot : presence.ofSlot? slot = some held) (hslots : rest.ofSlots slots = .ok helds) :
    (Fields.cons name presence shape rest).ofSlots (slot, slots) = .ok (held, helds) := by
  match presence, slot with
  | .required, none => cases hslot
  | .required, some a =>
      obtain rfl := Option.some.inj hslot
      rw [Fields.ofSlots, hslots]
      rfl
  | .optional, slot =>
      obtain rfl := Option.some.inj hslot
      rw [Fields.ofSlots, hslots]
      rfl

/-- If a name has one value, then one member has the name. -/
theorem filter_eq_singleton {v : Value} {ms : Members} (h : Members.valuesOf name ms = [v]) :
    (ms.filter fun m => m.1 = name) = [(name, v)] := by
  obtain ⟨m, hm, rfl⟩ := List.map_eq_singleton_iff.mp h
  have hmem : m ∈ ms.filter fun m => m.1 = name := hm ▸ List.mem_singleton.mpr rfl
  have hkey : m.1 = name := of_decide_eq_true (List.mem_filter.mp hmem).2
  rw [hm, ← hkey]

/-- No shape takes `null`. -/
theorem ofValue_null (shape : Shape) : shape.ofValue? .null = none := by
  cases shape <;> rfl

/-- **What the slot of a field says once all members have come** is what the field holds of the values
of its name. -/
theorem slotAfter_iff (h : ∀ {v a}, shape.ofValue? v = some a ↔ shape.Holds v a)
    {ms : Members} {held : presence.Holding shape.Held} :
    (∃ slot, SlotAfter name (presence.ofValue? shape.ofValue?) none
        (ms.filter fun m => m.1 = name) slot ∧ presence.ofSlot? slot = some held) ↔
      presence.Holds shape.Holds (Members.valuesOf name ms) held := by
  constructor
  · rintro ⟨slot, hslot, hheld⟩
    unfold Members.valuesOf
    generalize (ms.filter fun m => decide (m.1 = name)) = named at hslot ⊢
    cases hslot with
    | kept =>
        match presence, held with
        | .required, a => cases hheld
        | .optional, none => exact .inl rfl
        | .optional, some a => cases hheld
    | @put v held' hput =>
        match presence, held, held' with
        | .required, a, a' =>
            obtain rfl : a' = a := Option.some.inj hheld
            exact ⟨v, rfl, h.mp hput⟩
        | .optional, held, held' =>
            obtain rfl : held' = held := Option.some.inj hheld
            by_cases hnull : v = .null
            · subst hnull
              cases hput
              exact .inr rfl
            · rw [Presence.ofValue_of_ne_null _ hnull] at hput
              obtain ⟨a, ha, rfl⟩ := Option.map_eq_some_iff.mp hput
              exact ⟨v, rfl, h.mp ha⟩
  · intro hheld
    match presence, held with
    | .required, a =>
        obtain ⟨v, hvs, ha⟩ := hheld
        rw [filter_eq_singleton hvs]
        exact ⟨some a, .put (h.mpr ha), rfl⟩
    | .optional, none =>
        rcases hheld with hnil | hnull
        · rw [List.map_eq_nil_iff.mp hnil]
          exact ⟨none, .kept, rfl⟩
        · rw [filter_eq_singleton hnull]
          exact ⟨some none, .put rfl, rfl⟩
    | .optional, some a =>
        obtain ⟨v, hvs, ha⟩ := hheld
        have hput := h.mpr ha
        have hnull : v ≠ .null := by
          rintro rfl
          cases (ofValue_null shape).symm.trans hput
        rw [filter_eq_singleton hvs]
        refine ⟨some (some a), .put ?_, rfl⟩
        rw [Presence.ofValue_of_ne_null _ hnull, hput]
        rfl

end Records

/-- The fields hold what they hold of the members of their names. -/
theorem hold_filter (fields : Fields) {p : String → Bool} (hp : ∀ name ∈ fields.names, p name = true)
    {ms : Members} {helds : fields.Held} :
    fields.Hold (ms.filter fun m => p m.1) helds ↔ fields.Hold ms helds := by
  match fields with
  | .nil => exact Iff.rfl
  | .cons name presence shape rest =>
      obtain ⟨hname, hrest⟩ := List.forall_mem_cons.mp hp
      unfold Fields.Hold
      rw [Members.valuesOf_filter hname, hold_filter rest hrest]

/-- What a record makes of its members is what is in the slots at the end, and the other members. -/
theorem filled_iff {fields : Fields} {put? : Option (fields.Slots × Members)}
    {held : fields.Held × Members} :
    put?.bind fields.filled? = some held ↔
      ∃ slots, put? = some (slots, held.2) ∧ fields.ofSlots slots = .ok held.1 := by
  constructor
  · intro h
    obtain ⟨⟨slots, extra⟩, hput, hfilled⟩ := Option.bind_eq_some_iff.mp h
    obtain ⟨helds, hslots, rfl⟩ := Option.map_eq_some_iff.mp hfilled
    refine ⟨slots, hput, ?_⟩
    cases hof : fields.ofSlots slots with
    | error fault =>
        rw [hof] at hslots
        cases hslots
    | ok helds' =>
        rw [hof] at hslots
        rw [Option.some.inj hslots]
  · rintro ⟨slots, hput, hof⟩
    rw [hput, Option.bind_some, Fields.filled?, hof]
    rfl

theorem mapM_iff_forall₂ {of? : Value → Option α} {holds : Value → α → Prop}
    (h : ∀ {v a}, of? v = some a ↔ holds v a) {vs : List Value} {helds : List α} :
    vs.mapM of? = some helds ↔ List.Forall₂ holds vs helds := by
  induction vs generalizing helds with
  | nil =>
      constructor
      · intro hnil
        cases hnil
        exact .nil
      · intro hnil
        cases hnil
        rfl
  | cons v vs ih =>
      rw [List.mapM_cons]
      constructor
      · intro hcons
        obtain ⟨a, ha, hrest⟩ := Option.bind_eq_some_iff.mp hcons
        obtain ⟨helds', hhelds, heq⟩ := Option.bind_eq_some_iff.mp hrest
        obtain rfl := Option.some.inj heq
        exact .cons (h.mp ha) (ih.mp hhelds)
      · intro hcons
        cases hcons with
        | cons ha hrest =>
            rw [h.mpr ha, ih.mpr hrest]
            rfl

mutual

/-- **What a shape makes of a tree is what it holds of it.** -/
theorem ofValue?_iff (shape : Shape) (hd : shape.distinct = true) {v : Value} {held : shape.Held} :
    shape.ofValue? v = some held ↔ shape.Holds v held := by
  match shape with
  | .text =>
      constructor
      · intro h
        cases v <;> cases h
        rfl
      · rintro rfl
        rfl
  | .natural => exact natural?_iff
  | .integer => exact integer?_iff
  | .real =>
      constructor
      · intro h
        obtain ⟨n, hn, hx⟩ := Option.map_eq_some_iff.mp h
        cases v <;> cases hn
        exact ⟨n, rfl, hx⟩
      · rintro ⟨n, rfl, rfl⟩
        rfl
  | .truth =>
      constructor
      · intro h
        cases v <;> cases h
        rfl
      · rintro rfl
        rfl
  | .table =>
      constructor
      · intro h
        obtain ⟨ms, hms, hextra⟩ := Option.map_eq_some_iff.mp h
        cases v <;> cases hms
        exact ⟨ms, rfl, Members.gathers_iff.mpr hextra⟩
      · rintro ⟨ms, rfl, hgathers⟩
        exact congrArg some (Members.gathers_iff.mp hgathers)
  | .counters =>
      constructor
      · intro h
        obtain ⟨ms, hms, hput⟩ := Option.bind_eq_some_iff.mp h
        cases v <;> cases hms
        exact ⟨ms, rfl, Members.counts_iff.mpr hput⟩
      · rintro ⟨ms, rfl, hcounts⟩
        exact Members.counts_iff.mp hcounts
  | .list item =>
      have hitems {vs : List Value} {helds : List item.Held} :
          vs.mapM item.ofValue? = some helds ↔ List.Forall₂ item.Holds vs helds :=
        mapM_iff_forall₂ (ofValue?_iff item hd)
      constructor
      · intro h
        obtain ⟨vs, hvs, hmap⟩ := Option.bind_eq_some_iff.mp h
        cases v <;> cases hvs
        exact ⟨vs, rfl, hitems.mp hmap⟩
      · rintro ⟨vs, rfl, hall⟩
        exact hitems.mpr hall
  | .record name fields =>
      constructor
      · intro h
        obtain ⟨ms, hms, hfilled⟩ := Option.bind_eq_some_iff.mp h
        cases v <;> cases hms
        obtain ⟨hhold, hextra⟩ := (putAll_iff fields hd).mp (filled_iff.mp hfilled)
        exact ⟨ms, rfl, hhold, hextra⟩
      · rintro ⟨ms, rfl, hhold, hextra⟩
        exact filled_iff.mpr ((putAll_iff fields hd).mpr ⟨hhold, hextra⟩)

/-- The slots hold what the fields hold, and the other members are gathered. -/
theorem putAll_iff (fields : Fields) (hd : fields.distinct = true) {ms extra : Members}
    {helds : fields.Held} :
    (∃ slots, Reader.putAll (putMember fields.place?) ms (fields.noSlots, []) = some (slots, extra) ∧
      fields.ofSlots slots = .ok helds) ↔
      fields.Hold ms helds ∧ Members.Gathers (ms.filter fun m => m.1 ∉ fields.names) extra := by
  match fields with
  | .nil =>
      have hnone : ∀ m ∈ ms, m.1 ∉ Fields.nil.names := fun m _ => List.not_mem_nil
      have hall : (ms.filter fun m => m.1 ∉ Fields.nil.names) = ms :=
        List.filter_eq_self.mpr fun m hm => decide_eq_true (hnone m hm)
      have hput := putAll_other hnone () []
      rw [hall, Members.gathers_iff]
      constructor
      · rintro ⟨slots, hextra, _⟩
        exact ⟨trivial, (Prod.mk.inj (Option.some.inj (hput.symm.trans hextra))).2⟩
      · rintro ⟨_, rfl⟩
        exact ⟨(), hput, rfl⟩
  | .cons name presence shape rest =>
      obtain ⟨held, helds⟩ := helds
      simp only [Fields.distinct, Bool.and_eq_true, Bool.not_eq_true', List.contains_eq_mem,
        decide_eq_false_iff_not] at hd
      obtain ⟨⟨hname, hshape⟩, hrest⟩ := hd
      have hfirst : _ ↔ presence.Holds shape.Holds (Members.valuesOf name ms) held :=
        slotAfter_iff (ofValue?_iff shape hshape)
      -- the fields behind the first see the members of other names
      have hbehind : _ ↔ rest.Hold (ms.filter fun m => m.1 ≠ name) helds ∧
          Members.Gathers ((ms.filter fun m => m.1 ≠ name).filter fun m => m.1 ∉ rest.names) extra :=
        putAll_iff rest hrest
      have hnames : ∀ key ∈ rest.names, decide (key ≠ name) = true := fun key hkey =>
        decide_eq_true fun heq => hname (heq ▸ hkey)
      have hothers : ((ms.filter fun m => m.1 ≠ name).filter fun m => m.1 ∉ rest.names) =
          ms.filter fun m => m.1 ∉ (Fields.cons name presence shape rest).names := by
        rw [List.filter_filter]
        refine List.filter_congr fun m _ => ?_
        simp [Fields.names, Bool.and_comm]
      rw [hold_filter rest hnames, hothers] at hbehind
      constructor
      · rintro ⟨⟨slot, slots⟩, hput, hof⟩
        obtain ⟨hslot, hslots⟩ := putAll_cons hput
        obtain ⟨hheld, hhelds⟩ := ofSlots_cons hof
        obtain ⟨hhold, hextra⟩ := hbehind.mp ⟨slots, hslots, hhelds⟩
        exact ⟨⟨hfirst.mp ⟨slot, hslot, hheld⟩, hhold⟩, hextra⟩
      · rintro ⟨⟨hhold, hholds⟩, hextra⟩
        obtain ⟨slot, hslot, hheld⟩ := hfirst.mpr hhold
        obtain ⟨slots, hslots, hhelds⟩ := hbehind.mpr ⟨hholds, hextra⟩
        exact ⟨(slot, slots), putAll_cons_of hslot hslots, ofSlots_cons_of hheld hhelds⟩

end

/-- A name that comes twice is refused, even if it is optional and `null` both times. -/
example : (Shape.record "R" (.may "a" .text .nil)).ofValue?
    (.object [("a", .null), ("a", .null)]) = none := by
  rfl

/-! ## Records -/

namespace Record

variable [Record α]

/-- **What is read of a text** is what the shape holds of its tree. -/
theorem ofBytes_iff_holds (hd : (shape α).distinct = true) {input : Bytes} {a : α} :
    ofBytes input = .ok a ↔
      ∃ v, TextOf input v ∧ v.depth ≤ greatestDepth ∧ (shape α).Holds v (held a) := by
  rw [ofBytes_eq_ok_iff]
  simp only [ofValue?_iff (shape α) hd]

/-- **A text is read if and only if its tree fits the shape.** -/
theorem exists_ofBytes_iff_fits (hd : (shape α).distinct = true) {input : Bytes} :
    (∃ a : α, ofBytes input = .ok a) ↔
      ∃ v, TextOf input v ∧ v.depth ≤ greatestDepth ∧ (shape α).Fits v := by
  constructor
  · rintro ⟨a, ha⟩
    obtain ⟨v, htext, hdepth, hholds⟩ := (ofBytes_iff_holds hd).mp ha
    exact ⟨v, htext, hdepth, (fits_iff (shape α) v).mpr ⟨held a, hholds⟩⟩
  · rintro ⟨v, htext, hdepth, hfits⟩
    obtain ⟨held', hholds⟩ := (fits_iff (shape α) v).mp hfits
    rw [← held_ofHeld held'] at hholds
    exact ⟨ofHeld held', (ofBytes_iff_holds hd).mpr ⟨v, htext, hdepth, hholds⟩⟩

end Record

end CrashCourier.Json
