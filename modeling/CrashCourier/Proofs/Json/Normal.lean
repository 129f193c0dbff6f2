import CrashCourier.Proofs.Json.Document
import Mathlib.Data.List.Forall2

/-!
# What is written of what was read

A record that is read from a tree and written again is the same tree up to two things, and
`Shape.normal` does just these two: an optional member that is `null` is left out, and a whole number
where any number may stand becomes the binary64 number nearest to it. Everything else a tree holds
comes out as it went in, the members that no record names included.

The order of members is what `Shape.arranged` does: in every record the named members come first, in
the order of the shape, and the others follow in the order in which they came. `toValue_ofValue` says
that this is the whole difference.

The argument follows the fields. Members of one name are all that the slot of the first field sees,
the fields behind it see all the other members, and collecting repeated keys keeps the two apart.
-/

namespace CrashCourier.Json

/-! ## Values but for the order of members -/

mutual

/-- The values are the same but for the order of the members in their objects. -/
inductive Value.Alike : Value → Value → Prop
  | same (v : Value) : Value.Alike v v
  | list {vs ws : List Value} : List.Forall₂ Value.Alike vs ws → Value.Alike (.list vs) (.list ws)
  | object {ms ns ns' : List (String × Value)} :
    AlikeMembers ms ns → ns.Perm ns' → Value.Alike (.object ms) (.object ns')

/-- The members have the same keys, and values that are the same but for the order of members. -/
inductive AlikeMembers : List (String × Value) → List (String × Value) → Prop
  | nil : AlikeMembers [] []
  | cons {key : String} {v w : Value} {ms ns : List (String × Value)} :
    Value.Alike v w → AlikeMembers ms ns → AlikeMembers ((key, v) :: ms) ((key, w) :: ns)

end

theorem alikeMembers_map {f : Value → Value} (h : ∀ v, (f v).Alike v) (ms : Members) :
    AlikeMembers (ms.map fun m => (m.1, f m.2)) ms := by
  induction ms with
  | nil => exact .nil
  | cons m ms ih => exact .cons (h m.2) ih

theorem alikeMembers_self (ms : Members) : AlikeMembers ms ms := by
  induction ms with
  | nil => exact .nil
  | cons m ms ih => exact .cons (.same m.2) ih

theorem AlikeMembers.append {ms ns ms' ns' : Members} (h : AlikeMembers ms ns)
    (h' : AlikeMembers ms' ns') : AlikeMembers (ms ++ ms') (ns ++ ns') := by
  induction ms generalizing ns with
  | nil =>
      cases h
      exact h'
  | cons m ms ih =>
      cases h with
      | cons hv hrest => exact .cons hv (ih hrest)

/-! ## Parts of a value -/

namespace Value

def onNumber (f : Number → Number) : Value → Value
  | .number n => .number (f n)
  | v => v

def onItems (f : Value → Value) : Value → Value
  | .list vs => .list (vs.map f)
  | v => v

def onMembers (f : Members → Members) : Value → Value
  | .object ms => .object (f ms)
  | v => v

end Value

/-! ## The normal form -/

/-- The value of a member in normal form; `none` if the member is left out. -/
def Presence.normal (normal : Value → Value) : Presence → Value → Option Value
  | .optional, .null => none
  | _, v => some (normal v)

mutual

/-- The value with its whole numbers made binary64 where any number may stand, and without the
optional members that are `null`. -/
def Shape.normal : Shape → Value → Value
  | .real => Value.onNumber fun n => .real n.nearest
  | .list item => Value.onItems item.normal
  | .record _ fields => Value.onMembers (List.filterMap fields.normalMember)
  | .text | .natural | .integer | .truth | .table | .counters => id

/-- A member of a record in normal form, unless it is left out. -/
def Fields.normalMember : Fields → String × Value → Option (String × Value)
  | .nil => some
  | .cons name presence shape rest => fun m =>
    if m.1 = name then (presence.normal shape.normal m.2).map fun v => (name, v)
    else rest.normalMember m

end

/-! ## The order of members -/

/-- Members in the order of their keys. -/
def Members.sorted (ms : Members) : Members :=
  ms.mergeSort fun m n => m.1 ≤ n.1

mutual

/-- The value with the members of its records in the order in which they are written. -/
def Shape.arranged : Shape → Value → Value
  | .counters => Value.onMembers Members.sorted
  | .list item => Value.onItems item.arranged
  | .record _ fields => Value.onMembers fields.arrangedMembers
  | .text | .natural | .integer | .real | .truth | .table => id

/-- The members of a record: the named ones in the order of the fields, and then the others. -/
def Fields.arrangedMembers : Fields → Members → Members
  | .nil => id
  | .cons name _ shape rest => fun ms =>
    (ms.filter fun m => m.1 = name).map (fun m => (m.1, shape.arranged m.2)) ++
      rest.arrangedMembers (ms.filter fun m => m.1 ≠ name)

end

/-! ### Nothing but the order changes -/

mutual

/-- **An arranged value is the value but for the order of members.** -/
theorem alike_arranged (shape : Shape) (v : Value) : (shape.arranged v).Alike v := by
  match shape with
  | .text | .natural | .integer | .real | .truth | .table => exact .same v
  | .counters =>
      cases v with
      | object ms => exact .object (alikeMembers_self _) (List.mergeSort_perm ms _)
      | _ => exact .same _
  | .list item =>
      cases v with
      | list vs =>
          refine .list (List.forall₂_map_left_iff.mpr (List.forall₂_same.mpr fun v _ => ?_))
          exact alike_arranged item v
      | _ => exact .same _
  | .record name fields =>
      cases v with
      | object ms =>
          obtain ⟨ns, hns, hperm⟩ := alike_arrangedMembers fields ms
          exact .object hns hperm
      | _ => exact .same _

theorem alike_arrangedMembers (fields : Fields) (ms : Members) :
    ∃ ns, AlikeMembers (fields.arrangedMembers ms) ns ∧ ns.Perm ms := by
  match fields with
  | .nil => exact ⟨ms, alikeMembers_self ms, .refl ms⟩
  | .cons name presence shape rest =>
      obtain ⟨ns, hns, hperm⟩ := alike_arrangedMembers rest (ms.filter fun m => m.1 ≠ name)
      have hnamed := alikeMembers_map (alike_arranged shape) (ms.filter fun m => m.1 = name)
      have hsplit := List.filter_append_perm (fun m : String × Value => decide (m.1 = name)) ms
      refine ⟨_, hnamed.append hns, (hperm.append_left _).trans ?_⟩
      simpa only [decide_not] using hsplit

end

/-! ## Collecting, key by key -/

namespace Members

theorem filter_set (p : String → Bool) (key : String) (value : Value) (ms : Members) :
    (set key value ms).filter (fun m => p m.1) =
      if p key then set key value (ms.filter fun m => p m.1) else ms.filter fun m => p m.1 := by
  induction ms with
  | nil => cases hp : p key <;> simp [set, hp]
  | cons m ms ih =>
      obtain ⟨k, v⟩ := m
      by_cases hk : k = key
      · subst hk
        cases hp : p k <;> simp [set, hp]
      · rw [set, if_neg hk, List.filter_cons, ih]
        cases hpk : p k <;> cases hp : p key <;> simp [set, hk, hpk]

theorem filter_foldl_set (p : String → Bool) (ms taken : Members) :
    (ms.foldl (fun taken m => set m.1 m.2 taken) taken).filter (fun m => p m.1) =
      (ms.filter fun m => p m.1).foldl (fun taken m => set m.1 m.2 taken)
        (taken.filter fun m => p m.1) := by
  induction ms generalizing taken with
  | nil => rfl
  | cons m ms ih =>
      rw [List.foldl_cons, ih, filter_set, List.filter_cons]
      cases p m.1 <;> rfl

/-- Members that are collected are chosen by their keys before or after. -/
theorem filter_collected (p : String → Bool) (ms : Members) :
    (collected (settledMembers ms)).filter (fun m => p m.1) =
      collected (settledMembers (ms.filter fun m => p m.1)) := by
  rw [collected, filter_foldl_set, settledMembers_eq_map, settledMembers_eq_map, List.filter_map]
  rfl

end Members

/-! ## Numbers and tables -/

theorem toInt_toInt64_of_lt {n : UInt64} (h : n.toNat < Negative.greatest) :
    n.toInt64.toInt = n.toNat := by
  have hlt : 2 * n.toBitVec.toNat < 2 ^ 64 := by
    unfold Negative.greatest at h
    rw [UInt64.toNat_toBitVec]
    omega
  exact BitVec.toInt_eq_toNat_of_lt hlt

/-- A whole number that is held is written as it was read. -/
theorem Number.ofInteger_of_integer? {n : Number} {i : Int64} (h : n.integer? = some i) :
    Number.ofInteger i = n := by
  cases n with
  | natural n =>
      rw [Number.integer?] at h
      by_cases hn : n.toNat < Negative.greatest
      · have hpos : 0 ≤ n.toInt64.toInt := by
          rw [toInt_toInt64_of_lt hn]
          exact Int.natCast_nonneg _
        rw [if_pos hn] at h
        obtain rfl := Option.some.inj h
        unfold Number.ofInteger
        rw [dif_pos hpos, UInt64.toUInt64_toInt64]
      · rw [if_neg hn] at h
        cases h
  | negative n =>
      obtain ⟨m, hpos, hle⟩ := n
      obtain rfl : Int64.ofInt (-(m : Int)) = i := Option.some.inj h
      unfold Negative.greatest at hle
      have hint : (Int64.ofInt (-(m : Int))).toInt = -(m : Int) :=
        Int64.toInt_ofInt_of_le (by omega) (by omega)
      unfold Number.ofInteger
      rw [dif_neg (by omega)]
      congr 2
      omega
  | real x => cases h

theorem perm_set {key : String} {value : Value} {ms : Members} (h : (Members.keys ms).Nodup) :
    (Members.set key value ms).Perm ((key, value) :: ms.filter fun m => m.1 ≠ key) := by
  induction ms with
  | nil => exact .refl _
  | cons m ms ih =>
      obtain ⟨k, v⟩ := m
      obtain ⟨hk, hrest⟩ := List.nodup_cons.mp h
      by_cases heq : k = key
      · subst heq
        -- the key does not come again
        have hother : ms.filter (fun m => decide (m.1 ≠ k)) = ms :=
          List.filter_eq_self.mpr fun m hm => decide_eq_true fun heq =>
            hk (List.mem_map.mpr ⟨m, hm, heq⟩)
        rw [Members.set, if_pos rfl, List.filter_cons_of_neg (by simp), hother]
      · rw [Members.set, if_neg heq, List.filter_cons_of_pos (by simpa using heq)]
        exact ((ih hrest).cons _).trans (.swap ..)

theorem perm_insertEntry {α : Type} {key : String} {value : α} {entries : List (String × α)}
    (h : Ascending entries) :
    (insertEntry key value entries).Perm ((key, value) :: entries.filter fun e => e.1 ≠ key) := by
  induction entries with
  | nil => exact .refl _
  | cons e entries ih =>
      obtain ⟨k, a⟩ := e
      obtain ⟨hlt, hrest⟩ := List.pairwise_cons.mp h
      have hother {ls : List (String × α)} (hls : ∀ e ∈ ls, e.1 ≠ key) :
          ls.filter (fun e => decide (e.1 ≠ key)) = ls :=
        List.filter_eq_self.mpr fun e he => decide_eq_true (hls e he)
      rw [insertEntry]
      by_cases hless : key < k
      · -- everything that follows is greater than the key
        have hall : ∀ e ∈ (k, a) :: entries, e.1 ≠ key := by
          intro e he heq
          rcases List.mem_cons.mp he with rfl | he
          · exact String.lt_irrefl _ (heq ▸ hless)
          · exact String.lt_irrefl _ (heq ▸ String.lt_trans hless (hlt e he))
        rw [if_pos hless, hother hall]
      · by_cases heq : key = k
        · subst heq
          have hall : ∀ e ∈ entries, e.1 ≠ key := fun e he heq =>
            String.lt_irrefl _ (heq ▸ hlt e he)
          rw [if_neg hless, if_pos rfl, List.filter_cons_of_neg (by simp), hother hall]
        · rw [if_neg hless, if_neg heq, List.filter_cons_of_pos (by simpa using Ne.symm heq)]
          exact ((ih hrest).cons _).trans (.swap ..)

/-- The member of an entry. -/
def countMember (e : String × UInt64) : String × Value :=
  (e.1, .number (.natural e.2))

/-- The entries that were put in are the members, each key with its last value. -/
theorem perm_of_putAll_putCount {ms taken : Members} {t t' : Table UInt64}
    (h : Reader.putAll putCount ms t = some t') (hkeys : (Members.keys taken).Nodup)
    (htaken : (t.entries.map countMember).Perm taken) :
    (t'.entries.map countMember).Perm
      ((settledMembers ms).foldl (fun taken m => Members.set m.1 m.2 taken) taken) := by
  induction ms generalizing t taken with
  | nil =>
      obtain rfl : t = t' := Option.some.inj h
      exact htaken
  | cons m ms ih =>
      obtain ⟨key, v⟩ := m
      obtain ⟨t₁, hput, hrest⟩ := Option.bind_eq_some_iff.mp h
      obtain ⟨n, hn, rfl⟩ := Option.map_eq_some_iff.mp hput
      -- only a natural number is put in, and it is settled
      obtain ⟨x, hx, hnatural⟩ := Option.bind_eq_some_iff.mp hn
      obtain rfl : v = .number (.natural n) := by
        cases v <;> cases hx
        cases x <;> cases hnatural
        rfl
      refine ih hrest (Members.nodup_keys_set hkeys) ?_
      have hentries : ((t.insert key n).entries.map countMember).Perm
          (((key, n) :: t.entries.filter fun e => e.1 ≠ key).map countMember) :=
        (perm_insertEntry t.ascending).map countMember
      refine hentries.trans (.trans ?_ (perm_set hkeys).symm)
      have hfilter := htaken.filter fun m => decide (m.1 ≠ key)
      rw [List.filter_map] at hfilter
      exact hfilter.cons _

theorem pairwise_sorted {ms : Members} (h : (Members.keys ms).Nodup) :
    (Members.sorted ms).Pairwise fun m n => m.1 < n.1 := by
  have hperm : (Members.sorted ms).Perm ms := List.mergeSort_perm ms _
  have htrans (a b c : String × Value) (hab : decide (a.1 ≤ b.1) = true)
      (hbc : decide (b.1 ≤ c.1) = true) : decide (a.1 ≤ c.1) = true :=
    decide_eq_true (String.le_trans (of_decide_eq_true hab) (of_decide_eq_true hbc))
  have htotal (a b : String × Value) : (decide (a.1 ≤ b.1) || decide (b.1 ≤ a.1)) = true := by
    simpa only [Bool.or_eq_true, decide_eq_true_eq] using String.le_total a.1 b.1
  have hle : (Members.sorted ms).Pairwise fun m n => decide (m.1 ≤ n.1) = true :=
    List.pairwise_mergeSort htrans htotal ms
  have hne : (Members.sorted ms).Pairwise fun m n => m.1 ≠ n.1 :=
    List.pairwise_map.mp ((hperm.map Prod.fst).nodup_iff.mpr h)
  refine (hle.and hne).imp fun {m n} hmn => ?_
  exact String.not_le.mp fun hge => hmn.2 (String.le_antisymm (of_decide_eq_true hmn.1) hge)

/-- A table is written in the order of its keys. -/
theorem entries_of_putAll_putCount {ms : Members} {t : Table UInt64}
    (h : Reader.putAll putCount ms Table.empty = some t) :
    t.entries.map countMember = Members.sorted (Members.collected (settledMembers ms)) := by
  have hperm : (t.entries.map countMember).Perm (Members.collected (settledMembers ms)) :=
    perm_of_putAll_putCount h List.nodup_nil (.refl [])
  have hsorted := pairwise_sorted (Members.nodup_keys_collected (settledMembers ms))
  have hentries : (t.entries.map countMember).Pairwise fun m n => m.1 < n.1 :=
    List.pairwise_map.mpr t.ascending
  refine (hperm.trans (List.mergeSort_perm _ _).symm).eq_of_pairwise ?_ hentries hsorted
  -- no two keys are before each other
  exact fun m n _ _ hmn hnm => absurd hnm (String.lt_asymm hmn)

/-! ## Records -/

theorem Presence.normal_of_ne_null (normal : Value → Value) (presence : Presence) {v : Value}
    (hv : v ≠ .null) : presence.normal normal v = some (normal v) := by
  cases presence with
  | required => rfl
  | optional =>
      cases v with
      | null => exact absurd rfl hv
      | _ => rfl

section Records

variable {name : String} {presence : Presence} {shape : Shape} {rest : Fields}

/-- The first field says what a member of its name is in normal form. -/
theorem normalMember_self {m : String × Value} (h : m.1 = name) :
    (Fields.cons name presence shape rest).normalMember m =
      (presence.normal shape.normal m.2).map fun v => (name, v) :=
  if_pos h

/-- The fields behind it say what any other member is. -/
theorem normalMember_behind {m : String × Value} (h : m.1 ≠ name) :
    (Fields.cons name presence shape rest).normalMember m = rest.normalMember m :=
  if_neg h

/-- The normal form of a member has its key. -/
theorem Fields.key_normalMember {fields : Fields} {m m' : String × Value}
    (h : fields.normalMember m = some m') : m'.1 = m.1 := by
  match fields with
  | .nil => rw [Option.some.inj h]
  | .cons name presence shape rest =>
      by_cases hm : m.1 = name
      · rw [normalMember_self hm] at h
        obtain ⟨v, _, rfl⟩ := Option.map_eq_some_iff.mp h
        exact hm.symm
      · rw [normalMember_behind hm] at h
        exact Fields.key_normalMember h

/-- Members are chosen by their keys before or after they are put in normal form. -/
theorem filter_filterMap_normalMember (fields : Fields) (p : String → Bool) (ms : Members) :
    (ms.filterMap fields.normalMember).filter (fun m => p m.1) =
      (ms.filter fun m => p m.1).filterMap fields.normalMember := by
  rw [List.filter_filterMap, List.filterMap_filter]
  refine List.filterMap_congr fun m _ => ?_
  cases hnormal : fields.normalMember m with
  | none => simp
  | some m' => simp [Option.filter, Fields.key_normalMember hnormal]

/-- The members of the first name, collected and in normal form. -/
theorem normal_named (ms : Members) :
    ((Members.collected (settledMembers ms)).filterMap
        (Fields.cons name presence shape rest).normalMember).filter (fun m => m.1 = name) =
      (Members.collected (settledMembers (ms.filter fun m => m.1 = name))).filterMap
        (Fields.cons name presence shape rest).normalMember := by
  rw [filter_filterMap_normalMember _ fun key => decide (key = name),
    Members.filter_collected fun key => decide (key = name)]

/-- The members of other names, collected and in normal form: the fields behind the first say it. -/
theorem normal_behind (ms : Members) :
    ((Members.collected (settledMembers ms)).filterMap
        (Fields.cons name presence shape rest).normalMember).filter (fun m => m.1 ≠ name) =
      (Members.collected (settledMembers (ms.filter fun m => m.1 ≠ name))).filterMap
        rest.normalMember := by
  rw [filter_filterMap_normalMember _ fun key => decide (key ≠ name),
    ← Members.filter_collected fun key => decide (key ≠ name)]
  refine List.filterMap_congr fun m hm => normalMember_behind ?_
  exact of_decide_eq_true (List.mem_filter.mp hm).2

/-- What the first slot has after the members of its name: what it had, or the value of the one
member that there is. -/
inductive SlotAfter (name : String) (of? : Value → Option (presence.Holding shape.Held)) :
    (before : Option (presence.Holding shape.Held)) → (named : Members) →
    (after : Option (presence.Holding shape.Held)) → Prop
  | kept {slot : Option (presence.Holding shape.Held)} : SlotAfter name of? slot [] slot
  | put {v : Value} {held : presence.Holding shape.Held} :
    of? v = some held → SlotAfter name of? none [(name, v)] (some held)

/-- The members of the first name go to the first slot, all others go past it. -/
theorem putAll_cons {ms : Members} {slot slot' : Option (presence.Holding shape.Held)}
    {slots slots' : rest.Slots} {extra extra' : Members}
    (h : Reader.putAll (putMember (Fields.cons name presence shape rest).place?) ms
      ((slot, slots), extra) = some ((slot', slots'), extra')) :
    SlotAfter name (presence.ofValue? shape.ofValue?) slot (ms.filter fun m => m.1 = name) slot' ∧
      Reader.putAll (putMember rest.place?) (ms.filter fun m => m.1 ≠ name) (slots, extra) =
        some (slots', extra') := by
  induction ms generalizing slot slots extra with
  | nil =>
      cases h
      exact ⟨.kept, rfl⟩
  | cons m ms ih =>
      obtain ⟨key, v⟩ := m
      obtain ⟨⟨⟨slot₁, slots₁⟩, extra₁⟩, hput, hrest⟩ := Option.bind_eq_some_iff.mp h
      obtain ⟨hslot, hbehind⟩ := ih hrest
      by_cases hkey : key = name
      · subst hkey
        rw [List.filter_cons_of_pos (by simp), List.filter_cons_of_neg (by simp)]
        obtain ⟨⟨slot₂, slots₂⟩, hplaced, heq⟩ := Option.map_eq_some_iff.mp
          ((putMember_of_some (Fields.place_self v slot slots) extra).symm.trans hput)
        obtain ⟨hslots, rfl⟩ := Prod.mk.inj heq
        obtain ⟨rfl, rfl⟩ := Prod.mk.inj hslots
        cases slot with
        | some held => cases hplaced
        | none =>
            obtain ⟨held, hheld, hput⟩ := Option.map_eq_some_iff.mp hplaced
            obtain ⟨rfl, rfl⟩ := Prod.mk.inj hput
            -- a second member of the name would find the slot taken
            generalize ms.filter (fun m => decide (m.1 = key)) = named at hslot ⊢
            cases hslot
            exact ⟨.put hheld, hbehind⟩
      · rw [List.filter_cons_of_neg (by simpa using hkey),
          List.filter_cons_of_pos (by simpa using hkey)]
        obtain ⟨⟨slots₂, extra₂⟩, hplaced, heq⟩ := Option.map_eq_some_iff.mp
          ((putMember_behind hkey v slot slots extra).symm.trans hput)
        obtain ⟨hslots, rfl⟩ := Prod.mk.inj heq
        obtain ⟨rfl, rfl⟩ := Prod.mk.inj hslots
        refine ⟨hslot, ?_⟩
        rw [Reader.putAll, hplaced]
        exact hbehind

/-- What the slot of a field says once all members have come. -/
def Presence.ofSlot? {α : Type} :
    (presence : Presence) → Option (presence.Holding α) → Option (presence.Holding α)
  | .required, slot => slot
  | .optional, slot => some slot.join

theorem ofSlots_cons {slot : Option (presence.Holding shape.Held)} {slots : rest.Slots}
    {held : presence.Holding shape.Held} {helds : rest.Held}
    (h : (Fields.cons name presence shape rest).ofSlots (slot, slots) = .ok (held, helds)) :
    presence.ofSlot? slot = some held ∧ rest.ofSlots slots = .ok helds := by
  match presence, slot with
  | .required, none => cases h
  | .required, some a =>
      cases hrest : rest.ofSlots slots with
      | error fault =>
          rw [Fields.ofSlots, hrest] at h
          cases h
      | ok helds' =>
          rw [Fields.ofSlots, hrest] at h
          obtain ⟨rfl, rfl⟩ := Prod.mk.inj (Except.ok.inj h)
          exact ⟨rfl, rfl⟩
  | .optional, slot =>
      cases hrest : rest.ofSlots slots with
      | error fault =>
          rw [Fields.ofSlots, hrest] at h
          cases h
      | ok helds' =>
          rw [Fields.ofSlots, hrest] at h
          obtain ⟨rfl, rfl⟩ := Prod.mk.inj (Except.ok.inj h)
          exact ⟨rfl, rfl⟩

theorem Value.settled_eq_null {v : Value} : v.settled = .null ↔ v = .null := by
  cases v <;> simp [Value.settled]

/-- The first field is written as the member of its name, arranged and in normal form. -/
theorem toMembers_of_slot (rest : Fields)
    (hshape : ∀ {v : Value} {a : shape.Held}, shape.ofValue? v = some a →
      shape.toValue a = shape.arranged (shape.normal v.settled))
    {named : Members} {slot : Option (presence.Holding shape.Held)}
    {held : presence.Holding shape.Held}
    (hslot : SlotAfter name (presence.ofValue? shape.ofValue?) none named slot)
    (hheld : presence.ofSlot? slot = some held) :
    presence.toMembers name shape.toValue held =
      ((Members.collected (settledMembers named)).filterMap
        (Fields.cons name presence shape rest).normalMember).map
          fun m => (m.1, shape.arranged m.2) := by
  cases hslot with
  | kept =>
      match presence, held with
      | .required, a => cases hheld
      | .optional, held =>
          obtain rfl : none = held := Option.some.inj hheld
          rfl
  | @put v held' hput =>
      have hmember : (Members.collected (settledMembers [(name, v)])).filterMap
          (Fields.cons name presence shape rest).normalMember =
          ((presence.normal shape.normal v.settled).map fun v => (name, v)).toList := by
        have hsingle : Members.collected (settledMembers [(name, v)]) = [(name, v.settled)] := rfl
        rw [hsingle, List.filterMap_cons, normalMember_self (m := (name, v.settled)) rfl]
        cases presence.normal shape.normal v.settled <;> rfl
      rw [hmember]
      match presence, held, held' with
      | .required, a, a' =>
          obtain rfl : a' = a := Option.some.inj hheld
          exact congrArg (fun v => [(name, v)]) (hshape hput)
      | .optional, held, held' =>
          obtain rfl : held' = held := Option.some.inj hheld
          by_cases hnull : v = .null
          · subst hnull
            cases hput
            rfl
          · rw [Presence.ofValue_of_ne_null _ hnull] at hput
            obtain ⟨a, ha, rfl⟩ := Option.map_eq_some_iff.mp hput
            rw [Presence.normal_of_ne_null _ _ (mt Value.settled_eq_null.mp hnull)]
            exact congrArg (fun v => [(name, v)]) (hshape ha)

end Records

/-! ## What was read -/

theorem mapM_toValue {α : Type} {of? : Value → Option α} {toValue : α → Value} {f : Value → Value}
    (h : ∀ {v a}, of? v = some a → toValue a = f v) {vs : List Value} {as : List α}
    (has : vs.mapM of? = some as) : as.map toValue = vs.map f := by
  induction vs generalizing as with
  | nil =>
      obtain rfl : [] = as := Option.some.inj has
      rfl
  | cons v vs ih =>
      rw [List.mapM_cons] at has
      obtain ⟨a, hof, has⟩ := Option.bind_eq_some_iff.mp has
      obtain ⟨as', hrest, heq⟩ := Option.bind_eq_some_iff.mp has
      obtain rfl := Option.some.inj heq
      rw [List.map_cons, List.map_cons, h hof, ih hrest]

mutual

/-- **What was read is written as it was**, in normal form and arranged. -/
theorem toValue_ofValue (shape : Shape) {v : Value} {held : shape.Held}
    (h : shape.ofValue? v = some held) :
    shape.toValue held = shape.arranged (shape.normal v.settled) := by
  match shape with
  | .text =>
      cases v <;> cases h
      rfl
  | .truth =>
      cases v <;> cases h
      rfl
  | .natural =>
      obtain ⟨n, hn, hnatural⟩ := Option.bind_eq_some_iff.mp h
      cases v <;> cases hn
      cases n <;> cases hnatural
      rfl
  | .integer =>
      obtain ⟨n, hn, hinteger⟩ := Option.bind_eq_some_iff.mp h
      cases v <;> cases hn
      exact congrArg Value.number (Number.ofInteger_of_integer? hinteger)
  | .real =>
      obtain ⟨n, hn, rfl⟩ := Option.map_eq_some_iff.mp h
      cases v <;> cases hn
      rfl
  | .table =>
      obtain ⟨ms, hms, rfl⟩ := Option.map_eq_some_iff.mp h
      cases v <;> cases hms
      rfl
  | .counters =>
      obtain ⟨ms, hms, hput⟩ := Option.bind_eq_some_iff.mp h
      cases v <;> cases hms
      exact congrArg Value.object (entries_of_putAll_putCount hput)
  | .list item =>
      obtain ⟨vs, hvs, hitems⟩ := Option.bind_eq_some_iff.mp h
      cases v <;> cases hvs
      have hmap := mapM_toValue (fun hv => toValue_ofValue item hv) hitems
      refine congrArg Value.list (hmap.trans ?_)
      rw [settledItems_eq_map, List.map_map, List.map_map]
      rfl
  | .record name fields =>
      obtain ⟨ms, hms, hrecord⟩ := Option.bind_eq_some_iff.mp h
      cases v <;> cases hms
      obtain ⟨⟨slots, extra⟩, hput, hfilled⟩ := Option.bind_eq_some_iff.mp hrecord
      obtain ⟨helds, hslots, rfl⟩ := Option.map_eq_some_iff.mp hfilled
      cases hof : fields.ofSlots slots with
      | error fault =>
          rw [hof] at hslots
          cases hslots
      | ok helds' =>
          rw [hof] at hslots
          obtain rfl := Option.some.inj hslots
          exact congrArg Value.object (toMembers_of_putAll fields hput hof)

/-- The members of a record are written as they were, in normal form and arranged. -/
theorem toMembers_of_putAll (fields : Fields) {ms extra : Members} {slots : fields.Slots}
    {helds : fields.Held}
    (hput : Reader.putAll (putMember fields.place?) ms (fields.noSlots, []) = some (slots, extra))
    (hof : fields.ofSlots slots = .ok helds) :
    fields.toMembers helds ++ extra = fields.arrangedMembers
      ((Members.collected (settledMembers ms)).filterMap fields.normalMember) := by
  match fields, slots, helds with
  | .nil, (), () =>
      -- no field has a name, so that all members are other members
      have hall : ∀ m ∈ ms, m.1 ∉ Fields.nil.names := fun m _ => List.not_mem_nil
      have hextra := (putAll_other hall () []).symm.trans hput
      obtain ⟨_, rfl⟩ := Prod.mk.inj (Option.some.inj hextra)
      exact (List.filterMap_some ..).symm
  | .cons name presence shape rest, (slot, slots), (held, helds) =>
      obtain ⟨hslot, hbehind⟩ := putAll_cons hput
      obtain ⟨hheld, hhelds⟩ := ofSlots_cons hof
      have hfirst := toMembers_of_slot rest (fun hv => toValue_ofValue shape hv) hslot hheld
      have hrest := toMembers_of_putAll rest hbehind hhelds
      refine (List.append_assoc ..).trans ?_
      rw [hfirst, hrest, ← normal_named, ← normal_behind]
      rfl

end

end CrashCourier.Json
