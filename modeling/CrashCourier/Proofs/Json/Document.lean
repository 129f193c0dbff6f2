import CrashCourier.Json.Record
import CrashCourier.Proofs.Json.Sound
import CrashCourier.Proofs.Json.Written

/-!
# Records written and read

What a shape holds is written as a tree: `Shape.toValue` puts the named members first and leaves out
the optional ones that hold nothing. Reading this tree puts every named member into its slot, since
the names of the fields differ, and every other member behind the ones before it, since what is held
is sound.

So a record that was written is read as it was (`gives_write`). Only how deep the tree is and which
numbers stand in it can come in between, and these two are left to the reader of the theorem.
-/

namespace CrashCourier.Json

variable {α σ : Type}

/-! ## Whole numbers -/

theorem toNat_toUInt64_of_nonneg {i : Int64} (h : 0 ≤ i.toInt) :
    i.toUInt64.toNat = i.toInt.toNat :=
  Int64.toNat_toUInt64_of_le (Int64.le_iff_toInt_le.mpr h)

/-- A whole number of 64 bits, as it is written. -/
def Number.ofInteger (i : Int64) : Number :=
  if h : 0 ≤ i.toInt then .natural i.toUInt64
  else .negative ⟨i.toInt.natAbs, by omega, by
    have hle := i.le_toInt
    unfold Negative.greatest
    omega⟩

theorem Number.integer_ofInteger (i : Int64) : (Number.ofInteger i).integer? = some i := by
  have hlt := i.toInt_lt
  unfold Number.ofInteger
  by_cases h : 0 ≤ i.toInt
  · rw [dif_pos h, Number.integer?, toNat_toUInt64_of_nonneg h, Int64.toInt64_toUInt64]
    rw [if_pos (by unfold Negative.greatest; omega)]
  · have hneg : -(i.toInt.natAbs : Int) = i.toInt := by omega
    rw [dif_neg h, Number.integer?, hneg, Int64.ofInt_toInt]

theorem Number.write_ofInteger (i : Int64) :
    (Number.ofInteger i).write = octets (toString i.toInt) := by
  unfold Number.ofInteger
  by_cases h : 0 ≤ i.toInt
  · rw [dif_pos h, Number.write, toNat_toUInt64_of_nonneg h]
    obtain ⟨n, hn⟩ := Int.eq_ofNat_of_zero_le h
    rw [hn]
    rfl
  · rw [dif_neg h, Number.write]
    obtain ⟨n, hn⟩ := Int.eq_negSucc_of_lt_zero (Int.not_le.mp h)
    simp only [hn]
    rfl

/-! ## Records as trees -/

/-- The member in a tree, unless it is optional and holds nothing. -/
def Presence.toMembers (name : String) (toValue : α → Value) :
    (presence : Presence) → presence.Holding α → List (String × Value)
  | .required, held => [(name, toValue held)]
  | .optional, some held => [(name, toValue held)]
  | .optional, none => []

mutual

/-- The tree of what a shape holds. -/
def Shape.toValue : (shape : Shape) → shape.Held → Value
  | .text, s => .text s
  | .natural, n => .number (.natural n)
  | .integer, i => .number (.ofInteger i)
  | .real, x => .number (.real x)
  | .truth, b => .truth b
  | .table, members => .object members
  | .counters, table => .object (table.entries.map fun e => (e.1, .number (.natural e.2)))
  | .list item, items => .list (items.map item.toValue)
  | .record _ fields, held => .object (fields.toMembers held.1 ++ held.2)

/-- The named members of a record in a tree. -/
def Fields.toMembers : (fields : Fields) → fields.Held → List (String × Value)
  | .nil, _ => []
  | .cons name presence shape rest, held =>
    presence.toMembers name shape.toValue held.1 ++ rest.toMembers held.2

end

/-- Nothing is held as `null`. -/
theorem Shape.toValue_ne_null (shape : Shape) (held : shape.Held) : shape.toValue held ≠ .null := by
  cases shape <;> exact fun h => (nomatch h)

/-! ### Writing the tree -/

theorem writeItems_eq_map (items : List Value) : writeItems items = items.map Value.write := by
  induction items with
  | nil => rfl
  | cons v rest ih => rw [writeItems, ih, List.map_cons]

theorem writeMembers_eq_map (members : List (String × Value)) :
    writeMembers members = members.map fun m => writeMember m.1 m.2.write := by
  induction members with
  | nil => rfl
  | cons m rest ih => rw [writeMembers, ih, List.map_cons]

theorem Presence.write_eq {write : α → Bytes} {toValue : α → Value}
    (h : ∀ a, write a = (toValue a).write) (name : String) (presence : Presence) (held : presence.Holding α) :
    presence.write name write held = writeMembers (presence.toMembers name toValue held) := by
  match presence, held with
  | .required, a => exact congrArg (fun t => [writeMember name t]) (h a)
  | .optional, some a => exact congrArg (fun t => [writeMember name t]) (h a)
  | .optional, none => rfl

mutual

/-- **What a shape holds is written as its tree.** -/
theorem write_eq_toValue (shape : Shape) (held : shape.Held) :
    shape.write held = (shape.toValue held).write := by
  match shape with
  | .text | .natural | .real | .truth | .table => rfl
  | .integer => exact (Number.write_ofInteger held).symm
  | .counters =>
      have hentries : writeMembers (held.entries.map fun e => (e.1, .number (.natural e.2))) =
          held.entries.map fun e => writeMember e.1 (octets (toString e.2.toNat)) := by
        rw [writeMembers_eq_map, List.map_map]
        rfl
      exact congrArg writeObject hentries.symm
  | .list item =>
      have hitems (items : List item.Held) :
          writeItems (items.map item.toValue) = items.map item.write := by
        rw [writeItems_eq_map, List.map_map]
        exact List.map_congr_left fun i _ => (write_eq_toValue item i).symm
      exact congrArg writeList (hitems held).symm
  | .record name fields =>
      have hmembers : writeMembers (fields.toMembers held.1 ++ held.2) =
          fields.write held.1 ++ writeMembers held.2 := by
        rw [writeMembers_eq_map, List.map_append, ← writeMembers_eq_map, ← writeMembers_eq_map,
          write_eq_toMembers]
      exact congrArg writeObject hmembers.symm

theorem write_eq_toMembers (fields : Fields) (held : fields.Held) :
    fields.write held = writeMembers (fields.toMembers held) := by
  match fields with
  | .nil => rfl
  | .cons name presence shape rest =>
      have hfirst := Presence.write_eq (write_eq_toValue shape) name presence held.1
      have hrest := write_eq_toMembers rest held.2
      have happend : writeMembers (presence.toMembers name shape.toValue held.1 ++
          rest.toMembers held.2) = presence.write name shape.write held.1 ++ rest.write held.2 := by
        rw [writeMembers_eq_map, List.map_append, ← writeMembers_eq_map, ← writeMembers_eq_map,
          hfirst, hrest]
      exact happend.symm

end

/-! ### Reading the tree -/

mutual

/-- In every record the names of the fields differ. -/
def Shape.distinct : Shape → Bool
  | .text | .natural | .integer | .real | .truth | .table | .counters => true
  | .list item => item.distinct
  | .record _ fields => fields.distinct

/-- The names of the fields differ. -/
def Fields.distinct : Fields → Bool
  | .nil => true
  | .cons name _ shape rest => !rest.names.contains name && shape.distinct && rest.distinct

end

theorem Reader.putAll_append_list (put : String → Value → σ → Option σ)
    (ms ms' : List (String × Value)) (s : σ) :
    Reader.putAll put (ms ++ ms') s = (Reader.putAll put ms s).bind (Reader.putAll put ms') := by
  induction ms generalizing s with
  | nil => rfl
  | cons m ms ih =>
      rw [List.cons_append, Reader.putAll, Reader.putAll, Option.bind_assoc]
      exact Option.bind_congr fun s' _ => ih s'

/-- Putting in goes along with a map of the states if it does so for each member. -/
theorem Reader.putAll_map {τ : Type} {put : String → Value → σ → Option σ}
    {put' : String → Value → τ → Option τ} {f : σ → τ} {ms : List (String × Value)}
    (h : ∀ m ∈ ms, ∀ s, put' m.1 m.2 (f s) = (put m.1 m.2 s).map f) (s : σ) :
    Reader.putAll put' ms (f s) = (Reader.putAll put ms s).map f := by
  induction ms generalizing s with
  | nil => rfl
  | cons m ms ih =>
      have hrest (s : σ) := ih (fun m hm => h m (List.mem_cons_of_mem _ hm)) s
      rw [Reader.putAll, Reader.putAll, h m List.mem_cons_self, Option.map_bind, Option.bind_map]
      exact Option.bind_congr fun s _ => hrest s

/-- The slot of a member that was written. -/
def Presence.toSlot : (presence : Presence) → presence.Holding α → Option (presence.Holding α)
  | .required, held => some held
  | .optional, some a => some (some a)
  | .optional, none => none

/-- The slots of a record whose members were all written. -/
def Fields.toSlots : (fields : Fields) → fields.Held → fields.Slots
  | .nil, _ => ()
  | .cons _ presence _ rest, held => (presence.toSlot held.1, rest.toSlots held.2)

theorem Fields.ofSlots_toSlots (fields : Fields) (held : fields.Held) :
    fields.ofSlots (fields.toSlots held) = .ok held := by
  match fields, held with
  | .nil, () => rfl
  | .cons name .required shape rest, (a, helds) =>
      show (rest.ofSlots (rest.toSlots helds) >>= fun helds => pure (a, helds)) = _
      rw [rest.ofSlots_toSlots helds]
      rfl
  | .cons name .optional shape rest, (none, helds) =>
      show (rest.ofSlots (rest.toSlots helds) >>= fun helds => pure (none, helds)) = _
      rw [rest.ofSlots_toSlots helds]
      rfl
  | .cons name .optional shape rest, (some a, helds) =>
      show (rest.ofSlots (rest.toSlots helds) >>= fun helds => pure (some a, helds)) = _
      rw [rest.ofSlots_toSlots helds]
      rfl

section Putting

variable {name : String} {presence : Presence} {shape : Shape} {rest : Fields}

/-- A written member goes to its slot. -/
theorem putAll_toMembers {held : presence.Holding shape.Held}
    (h : presence.All (fun a => shape.ofValue? (shape.toValue a) = some a) held)
    (slots : rest.Slots) (extra : Members) :
    Reader.putAll (putMember (Fields.cons name presence shape rest).place?)
      (presence.toMembers name shape.toValue held) ((none, slots), extra) =
      some ((presence.toSlot held, slots), extra) := by
  have hput {v : Value} {a : presence.Holding shape.Held}
      (ha : presence.ofValue? shape.ofValue? v = some a) :
      Reader.putAll (putMember (Fields.cons name presence shape rest).place?) [(name, v)]
        ((none, slots), extra) = some ((some a, slots), extra) := by
    have hslot : putSlot (presence.ofValue? shape.ofValue?) v slots none =
        some (some a, slots) := congrArg (Option.map _) ha
    have hplace : (Fields.cons name presence shape rest).place? name v (none, slots) = _ :=
      (Fields.place_self v none slots).trans (congrArg some hslot)
    exact congrArg (fun o => Option.bind o some) (putMember_of_some hplace extra)
  match presence, held with
  | .required, a => exact hput (v := shape.toValue a) h
  | .optional, none => rfl
  | .optional, some a => 
      have hoptional := Presence.ofValue_of_ne_null shape.ofValue? (shape.toValue_ne_null a)
      exact hput (hoptional.trans (congrArg (Option.map some) (h a rfl)))

/-- A member of another key goes past the first field. -/
theorem putMember_behind {key : String} (h : key ≠ name) (v : Value)
    (slot : Option (presence.Holding shape.Held)) (slots : rest.Slots) (extra : Members) :
    putMember (Fields.cons name presence shape rest).place? key v ((slot, slots), extra) =
      (putMember rest.place? key v (slots, extra)).map fun s => ((slot, s.1), s.2) := by
  have hplace := Fields.place_behind h v slot slots
  cases hrest : rest.place? key v slots with
  | none =>
      rw [hrest] at hplace
      rw [putMember_of_none hrest]
      exact putMember_of_none hplace extra
  | some slots? =>
      rw [hrest] at hplace
      rw [putMember_of_some hrest, Option.map_map]
      refine (putMember_of_some hplace extra).trans (Eq.trans ?_ rfl)
      exact Option.map_map ..

/-- Members of other keys go past the first field. -/
theorem putAll_behind {ms : List (String × Value)} (h : ∀ m ∈ ms, m.1 ≠ name)
    (slot : Option (presence.Holding shape.Held)) (slots : rest.Slots) (extra : Members) :
    Reader.putAll (putMember (Fields.cons name presence shape rest).place?) ms
      ((slot, slots), extra) =
      (Reader.putAll (putMember rest.place?) ms (slots, extra)).map fun s =>
        ((slot, s.1), s.2) := by
  exact Reader.putAll_map (fun m hm s => putMember_behind (h m hm) m.2 slot s.1 s.2) (slots, extra)

end Putting

/-- The members that no field names are put behind each other. -/
theorem putAll_other {fields : Fields} {ms : List (String × Value)}
    (h : ∀ m ∈ ms, m.1 ∉ fields.names) (slots : fields.Slots) (extra : Members) :
    Reader.putAll (putMember fields.place?) ms (slots, extra) =
      some (slots, (settledMembers ms).foldl (fun taken m => Members.set m.1 m.2 taken) extra) := by
  have hput : ∀ m ∈ ms, ∀ extra, putMember fields.place? m.1 m.2 (slots, extra) =
      (Reader.putSettled m.1 m.2 extra).map fun extra => (slots, extra) := by
    intro m hm extra
    exact putMember_of_none (Fields.place_eq_none.mpr (h m hm)) extra
  rw [Reader.putAll_map hput extra, Reader.putAll_putSettled]
  rfl

theorem Presence.name_of_mem_toMembers {name : String} {toValue : α → Value} {presence : Presence}
    {held : presence.Holding α} {m : String × Value}
    (h : m ∈ presence.toMembers name toValue held) : m.1 = name := by
  match presence, held with
  | .required, a => rw [List.mem_singleton.mp h]
  | .optional, some a => rw [List.mem_singleton.mp h]
  | .optional, none => exact absurd h List.not_mem_nil

theorem Fields.mem_names_of_mem_toMembers {fields : Fields} {held : fields.Held}
    {m : String × Value} (h : m ∈ fields.toMembers held) : m.1 ∈ fields.names := by
  match fields with
  | .nil => exact absurd h List.not_mem_nil
  | .cons name presence shape rest =>
      rcases List.mem_append.mp h with h | h
      · rw [Presence.name_of_mem_toMembers h]
        exact List.mem_cons_self
      · exact List.mem_cons_of_mem _ (Fields.mem_names_of_mem_toMembers h)

/-! ### Tables -/

/-- Members whose values are put in as entries make the table of these entries. -/
theorem putAll_insert {put : String → Value → Table α → Option (Table α)} (toValue : α → Value)
    (hput : ∀ key a t, put key (toValue a) t = some (t.insert key a)) (entries : List (String × α))
    (t : Table α) :
    Reader.putAll put (entries.map fun e => (e.1, toValue e.2)) t =
      some (entries.foldl (fun t e => t.insert e.1 e.2) t) := by
  induction entries generalizing t with
  | nil => rfl
  | cons e entries ih =>
      rw [List.map_cons, Reader.putAll, hput]
      exact ih (t.insert e.1 e.2)

/-! ### Values -/

theorem mapM_map_of {of? : Value → Option α} {toValue : α → Value} {items : List α}
    (h : ∀ i ∈ items, of? (toValue i) = some i) : (items.map toValue).mapM of? = some items := by
  induction items with
  | nil => rfl
  | cons i items ih =>
      rw [List.map_cons, List.mapM_cons, h i List.mem_cons_self,
        ih fun i hi => h i (List.mem_cons_of_mem _ hi)]
      rfl

mutual

/-- **A tree that was made of what a shape holds holds just that.** -/
theorem ofValue_toValue (shape : Shape) (hd : shape.distinct = true) {held : shape.Held}
    (hs : shape.Sound held) : shape.ofValue? (shape.toValue held) = some held := by
  match shape with
  | .text | .natural | .real | .truth => rfl
  | .integer => exact Number.integer_ofInteger held
  | .table => exact congrArg some (Members.Settled.collected hs)
  | .counters =>
      have hput : ∀ key n t, putCount key (.number (.natural n)) t = some (t.insert key n) :=
        fun _ _ _ => rfl
      have hheld := congrArg some (Table.ofList_entries held)
      exact (putAll_insert (.number <| .natural ·) hput held.entries .empty).trans hheld
  | .list item => exact mapM_map_of fun i hi => ofValue_toValue item hd (hs i hi)
  | .record name fields =>
      obtain ⟨helds, extra⟩ := held
      obtain ⟨hsound, hother⟩ := hs
      have hnamed := putAll_named fields hd hsound []
      have hunnamed : ∀ m ∈ extra, m.1 ∉ fields.names := fun m hm =>
        hother.unnamed m.1 (List.mem_map_of_mem hm)
      have hextra : (settledMembers extra).foldl (fun taken m => Members.set m.1 m.2 taken) [] =
          extra := hother.settled.collected
      have hput : Reader.putAll (putMember fields.place?) (fields.toMembers helds ++ extra)
          (fields.noSlots, []) = some (fields.toSlots helds, extra) := by
        rw [Reader.putAll_append_list, hnamed, Option.bind_some, putAll_other hunnamed, hextra]
      have hfilled : fields.filled? (fields.toSlots helds, extra) = some (helds, extra) := by
        rw [Fields.filled?, Fields.ofSlots_toSlots]
        rfl
      exact (congrArg (fun o => Option.bind o fields.filled?) hput).trans hfilled

/-- The named members go to their slots. -/
theorem putAll_named (fields : Fields) (hd : fields.distinct = true) {held : fields.Held}
    (hs : fields.Sound held) (extra : Members) :
    Reader.putAll (putMember fields.place?) (fields.toMembers held) (fields.noSlots, extra) =
      some (fields.toSlots held, extra) := by
  match fields with
  | .nil => rfl
  | .cons name presence shape rest =>
      obtain ⟨a, helds⟩ := held
      obtain ⟨ha, hhelds⟩ := hs
      simp only [Fields.distinct, Bool.and_eq_true, Bool.not_eq_true', List.contains_eq_mem,
        decide_eq_false_iff_not] at hd
      obtain ⟨⟨hname, hshape⟩, hrest⟩ := hd
      have hfirst := @putAll_toMembers name presence shape rest a
        (ha.imp fun _ h => ofValue_toValue shape hshape h) rest.noSlots extra
      have hnames : ∀ m ∈ rest.toMembers helds, m.1 ≠ name := fun m hm heq =>
        hname (heq ▸ Fields.mem_names_of_mem_toMembers hm)
      have hbehind := putAll_behind hnames (presence.toSlot a) rest.noSlots extra
      rw [putAll_named rest hrest hhelds extra] at hbehind
      refine (Reader.putAll_append_list ..).trans ?_
      exact (congrArg (fun o => Option.bind o _) hfirst).trans hbehind

end

/-! ## Written records read back -/

open Reader in
/-- **What a shape holds is read back, whatever follows it.** -/
theorem gives_write {shape : Shape} (hd : shape.distinct = true) {held : shape.Held}
    (hs : shape.Sound held) {depth : Nat} (hdepth : (shape.toValue held).depth ≤ depth)
    (hreals : ∀ x ∈ (shape.toValue held).reals, x.ReadsBack) {rest : Bytes} (hrest : Ends rest) :
    Gives (shape.read depth) (shape.write held ++ rest) held rest := by
  have hraw := gives_raw_write (shape.toValue held) hdepth hreals hrest
  rw [← write_eq_toValue] at hraw
  exact (readsAs_shape shape depth).mpr ⟨shape.toValue held, hraw, ofValue_toValue shape hd hs⟩

namespace Reader

/-- Nothing but blanks may be left. -/
theorem gives_finish {input rest : Bytes} {u : Unit} :
    Gives finish input u rest ↔ input.dropWhile isBlank = [] ∧ rest = [] := by
  unfold finish
  rw [gives_bind]
  refine ⟨?_, ?_⟩
  · intro h
    obtain ⟨c, mid, hahead, h⟩ := h
    obtain ⟨rfl, rfl⟩ := gives_ahead.mp hahead
    cases hmid : input.dropWhile isBlank with
    | nil =>
        rw [hmid] at h
        exact ⟨rfl, (gives_pure.mp h).2⟩
    | cons b tail =>
        rw [hmid] at h
        exact absurd h gives_throw
  · intro h
    obtain ⟨hmid, rfl⟩ := h
    exact ⟨none, [], gives_ahead.mpr ⟨rfl, hmid.symm⟩, gives_pure.mpr ⟨rfl, rfl⟩⟩

/-- A text is read if the reader takes all of it but blanks. -/
theorem run_eq_ok {r : Reader α} {input : Bytes} {a : α} :
    Reader.run r input = .ok a ↔ ∃ rest, Gives r input a rest ∧ rest.dropWhile isBlank = [] := by
  have hgives : Reader.run r input = .ok a ↔ ∃ rest, Gives (do
      let a ← r
      finish
      return a) input a rest := by
    unfold Reader.run Gives
    rw [StateT.run]
    refine ⟨?_, ?_⟩
    · intro h
      cases hr : (do
          let a ← r
          finish
          return a : Reader α) input with
      | error fault =>
          rw [hr] at h
          cases h
      | ok p =>
          rw [hr] at h
          cases h
          exact ⟨p.2, rfl⟩
    · intro h
      obtain ⟨rest, h⟩ := h
      rw [h]
      rfl
  -- behind the value only blanks are left, so that the rest is empty
  rw [hgives]
  simp only [gives_bind, gives_finish, gives_pure]
  refine ⟨?_, ?_⟩
  · intro h
    obtain ⟨_, _, mid, hr, _, _, ⟨hmid, _⟩, rfl, _⟩ := h
    exact ⟨mid, hr, hmid⟩
  · intro h
    obtain ⟨mid, hr, hmid⟩ := h
    exact ⟨[], a, mid, hr, (), [], ⟨hmid, rfl⟩, rfl, rfl⟩

end Reader

namespace Record

variable [Record α]

/-- The tree of a value. -/
def document (a : α) : Value :=
  (shape α).toValue (held a)

theorem write_document (a : α) : (document a).write = toBytes a :=
  (write_eq_toValue (shape α) (held a)).symm

theorem write_documents (as : List α) :
    (Value.list (as.map document)).write = writeList (as.map toBytes) := by
  rw [Value.write, writeItems_eq_map, List.map_map]
  exact congrArg writeList (List.map_congr_left fun a _ => write_document a)

/-- Every record in the value keeps its other members apart from the named ones. -/
def Sound (a : α) : Prop :=
  (shape α).Sound (held a)

theorem sound_ofBytes {input : Bytes} {a : α} (h : ofBytes input = .ok a) : Sound a := by
  obtain ⟨rest, h, _⟩ := Reader.run_eq_ok.mp h
  obtain ⟨held', hread, rfl⟩ := Reader.gives_map.mp h
  obtain ⟨v, _, hof⟩ := (Reader.readsAs_shape (shape α) greatestDepth).mp hread
  have hsound := sound_ofValue (shape α) hof
  unfold Sound
  rw [held_ofHeld]
  exact hsound

/-- Each value of an array that was read is sound. -/
theorem sound_listOfBytes {input : Bytes} {as : List α} (h : listOfBytes input = .ok as) :
    ∀ a ∈ as, Sound a := by
  obtain ⟨rest, h, _⟩ := Reader.run_eq_ok.mp h
  obtain ⟨helds, hread, rfl⟩ := Reader.gives_map.mp h
  obtain ⟨v, _, hof⟩ := (Reader.readsAs_shape (.list (shape α)) greatestDepth).mp hread
  have hsound := sound_ofValue (.list (shape α)) hof
  intro a ha
  obtain ⟨held', hmem, rfl⟩ := List.mem_map.mp ha
  unfold Sound
  rw [held_ofHeld]
  exact hsound held' hmem

/-- **What was written is read as it was.** -/
theorem ofBytes_toBytes (hd : (shape α).distinct = true) {a : α} (hs : Sound a)
    (hdepth : (document a).depth ≤ greatestDepth) (hreals : ∀ x ∈ (document a).reals, x.ReadsBack) :
    ofBytes (toBytes a) = .ok a := by
  have hread := gives_write hd hs hdepth hreals Reader.ends_nil
  rw [List.append_nil] at hread
  refine Reader.run_eq_ok.mpr ⟨[], ?_, rfl⟩
  exact Reader.gives_map.mpr ⟨held a, hread, (ofHeld_held a).symm⟩

theorem same_self {a : α} (h : Sound a) : same a a = true :=
  Json.same_self (shape α) h

end Record

end CrashCourier.Json
