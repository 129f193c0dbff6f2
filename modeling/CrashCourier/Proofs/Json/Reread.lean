import CrashCourier.Proofs.Json.Normal

/-!
# A document read and written

A record was read from a text and is written again. What is the new text as a JSON value? It is the
value of the old text, in normal form and arranged (`toBytes_ofBytes`). The numbers with a fraction
are asked about, since they need not be read as they were written; nothing else is.

The new text can be read at all because it is nested no deeper than the old one. No step on the way
makes a value deeper: repeated keys are dropped, members are left out or move, and a number takes the
place of a number.
-/

namespace CrashCourier.Json

/-! ## Depth -/

theorem depthItems_le {items : List Value} {depth : Nat} :
    depthItems items ≤ depth ↔ ∀ v ∈ items, v.depth ≤ depth := by
  induction items with
  | nil => simp [depthItems]
  | cons v rest ih => rw [depthItems, Nat.max_le, ih, List.forall_mem_cons]

theorem depthMembers_le {members : List (String × Value)} {depth : Nat} :
    depthMembers members ≤ depth ↔ ∀ m ∈ members, m.2.depth ≤ depth := by
  induction members with
  | nil => simp [depthMembers]
  | cons m rest ih => rw [depthMembers, Nat.max_le, ih, List.forall_mem_cons]

theorem depth_le_of_mem_items {items : List Value} {v : Value} (h : v ∈ items) :
    v.depth ≤ depthItems items :=
  depthItems_le.mp (Nat.le_refl _) v h

theorem depth_le_of_mem_members {members : List (String × Value)} {m : String × Value}
    (h : m ∈ members) : m.2.depth ≤ depthMembers members :=
  depthMembers_le.mp (Nat.le_refl _) m h

namespace Reader

theorem TakesItems.all {α : Type} {item : Reader α} {p : α → Prop}
    (hitem : ∀ {input rest a}, Gives item input a rest → p a) {first : Bool} {as : List α}
    {input rest : Bytes} (h : TakesItems item first input as rest) : ∀ a ∈ as, p a := by
  induction h with
  | close _ => exact fun a ha => absurd ha List.not_mem_nil
  | next _ _ _ ha _ ih => exact List.forall_mem_cons.mpr ⟨hitem ha, ih⟩

theorem TakesPairs.all {tree : Reader Value} {p : Value → Prop}
    (htree : ∀ {input rest v}, Gives tree input v rest → p v) {first : Bool}
    {ms : List (String × Value)} {input rest : Bytes} (h : TakesPairs tree first input ms rest) :
    ∀ m ∈ ms, p m.2 := by
  induction h with
  | close _ => exact fun m hm => absurd hm List.not_mem_nil
  | next _ _ _ _ hv _ ih => exact List.forall_mem_cons.mpr ⟨htree hv, ih⟩

/-- A tree that was read is nested no deeper than the reader goes. -/
theorem depth_le_of_gives_raw {depth : Nat} {input rest : Bytes} {v : Value}
    (h : Gives (raw depth) input v rest) : v.depth ≤ depth := by
  induction depth generalizing input rest v with
  | zero =>
      cases gives_raw.mp h with
      | list _ hvs => exact absurd hvs not_within_zero
      | object _ hms => exact absurd hms not_within_zero
      | _ => exact Nat.le_refl 0
  | succ depth ih =>
      cases gives_raw.mp h with
      | list _ hvs =>
          have hitems := (gives_items (shortens_raw depth)).mp (rawItems_succ.mp hvs)
          exact Nat.succ_le_succ (depthItems_le.mpr (hitems.all ih))
      | object _ hms =>
          have hmembers := (gives_rawMembers (leaves_raw depth)).mp (rawMembers_succ.mp hms)
          exact Nat.succ_le_succ (depthMembers_le.mpr (hmembers.all ih))
      | _ => exact Nat.zero_le _

end Reader

mutual

theorem depth_settled_le (v : Value) : v.settled.depth ≤ v.depth := by
  match v with
  | .null | .truth _ | .number _ | .text _ => exact Nat.le_refl _
  | .list items =>
      refine Nat.succ_le_succ (depthItems_le.mpr fun w hw => ?_)
      rw [settledItems_eq_map] at hw
      obtain ⟨v, hv, rfl⟩ := List.mem_map.mp hw
      exact Nat.le_trans (depth_settled_le_items items v hv) (depth_le_of_mem_items hv)
  | .object members =>
      refine Nat.succ_le_succ (depthMembers_le.mpr fun n hn => ?_)
      have hmem := Members.mem_of_mem_collected hn
      rw [settledMembers_eq_map] at hmem
      obtain ⟨m, hm, rfl⟩ := List.mem_map.mp hmem
      exact Nat.le_trans (depth_settled_le_members members m hm) (depth_le_of_mem_members hm)

theorem depth_settled_le_items (items : List Value) : ∀ v ∈ items, v.settled.depth ≤ v.depth := by
  match items with
  | [] => exact fun v hv => absurd hv List.not_mem_nil
  | v :: rest => exact List.forall_mem_cons.mpr ⟨depth_settled_le v, depth_settled_le_items rest⟩

theorem depth_settled_le_members (members : List (String × Value)) :
    ∀ m ∈ members, m.2.settled.depth ≤ m.2.depth := by
  match members with
  | [] => exact fun m hm => absurd hm List.not_mem_nil
  | (_, v) :: rest =>
      exact List.forall_mem_cons.mpr ⟨depth_settled_le v, depth_settled_le_members rest⟩

end

theorem depth_onItems_le {f : Value → Value} (h : ∀ v, (f v).depth ≤ v.depth) (v : Value) :
    (v.onItems f).depth ≤ v.depth := by
  cases v with
  | list items =>
      refine Nat.succ_le_succ (depthItems_le.mpr fun w hw => ?_)
      obtain ⟨v, hv, rfl⟩ := List.mem_map.mp hw
      exact Nat.le_trans (h v) (depth_le_of_mem_items hv)
  | _ => exact Nat.le_refl _

theorem depth_onMembers_le {f : Members → Members}
    (h : ∀ ms, ∀ n ∈ f ms, ∃ m ∈ ms, n.2.depth ≤ m.2.depth) (v : Value) :
    (v.onMembers f).depth ≤ v.depth := by
  cases v with
  | object members =>
      refine Nat.succ_le_succ (depthMembers_le.mpr fun n hn => ?_)
      obtain ⟨m, hm, hle⟩ := h members n hn
      exact Nat.le_trans hle (depth_le_of_mem_members hm)
  | _ => exact Nat.le_refl _

theorem Presence.eq_of_normal {normal : Value → Value} {presence : Presence} {v w : Value}
    (h : presence.normal normal v = some w) : w = normal v := by
  by_cases hnull : v = .null
  · subst hnull
    cases presence with
    | required => exact (Option.some.inj h).symm
    | optional => cases h
  · rw [Presence.normal_of_ne_null _ _ hnull] at h
    exact (Option.some.inj h).symm

mutual

theorem depth_normal_le (shape : Shape) (v : Value) : (shape.normal v).depth ≤ v.depth := by
  match shape with
  | .text | .natural | .integer | .truth | .table | .counters => exact Nat.le_refl _
  | .real => cases v <;> exact Nat.le_refl _
  | .list item => exact depth_onItems_le (depth_normal_le item) v
  | .record name fields =>
      refine depth_onMembers_le (fun ms n hn => ?_) v
      obtain ⟨m, hm, hnormal⟩ := List.mem_filterMap.mp hn
      exact ⟨m, hm, depth_normalMember_le fields hnormal⟩

theorem depth_normalMember_le (fields : Fields) {m n : String × Value}
    (h : fields.normalMember m = some n) : n.2.depth ≤ m.2.depth := by
  match fields with
  | .nil => rw [Option.some.inj h]
  | .cons name presence shape rest =>
      by_cases hm : m.1 = name
      · rw [normalMember_self hm] at h
        obtain ⟨v, hv, rfl⟩ := Option.map_eq_some_iff.mp h
        rw [Presence.eq_of_normal hv]
        exact depth_normal_le shape m.2
      · rw [normalMember_behind hm] at h
        exact depth_normalMember_le rest h

end

mutual

theorem depth_arranged_le (shape : Shape) (v : Value) : (shape.arranged v).depth ≤ v.depth := by
  match shape with
  | .text | .natural | .integer | .real | .truth | .table => exact Nat.le_refl _
  | .counters =>
      refine depth_onMembers_le (fun ms n hn => ?_) v
      exact ⟨n, List.mem_mergeSort.mp hn, Nat.le_refl _⟩
  | .list item => exact depth_onItems_le (depth_arranged_le item) v
  | .record name fields => exact depth_onMembers_le (depth_arrangedMembers_le fields) v

theorem depth_arrangedMembers_le (fields : Fields) (ms : Members) :
    ∀ n ∈ fields.arrangedMembers ms, ∃ m ∈ ms, n.2.depth ≤ m.2.depth := by
  match fields with
  | .nil => exact fun n hn => ⟨n, hn, Nat.le_refl _⟩
  | .cons name presence shape rest =>
      intro n hn
      rcases List.mem_append.mp hn with hn | hn
      · obtain ⟨m, hm, rfl⟩ := List.mem_map.mp hn
        exact ⟨m, (List.mem_filter.mp hm).1, depth_arranged_le shape m.2⟩
      · obtain ⟨m, hm, hle⟩ := depth_arrangedMembers_le rest _ n hn
        exact ⟨m, (List.mem_filter.mp hm).1, hle⟩

end

/-! ## Settled documents -/

/-- The members of a field and those behind it, which have other names. -/
theorem Presence.settled_toMembers {α : Type} {name : String} {toValue : α → Value}
    {presence : Presence} {held : presence.Holding α}
    (h : presence.All (fun a => (toValue a).settled = toValue a) held) {ms : Members}
    (hname : name ∉ Members.keys ms) (hms : Members.Settled ms) :
    Members.Settled (presence.toMembers name toValue held ++ ms) := by
  have hput {a : α} (ha : (toValue a).settled = toValue a) :
      Members.Settled ((name, toValue a) :: ms) :=
    ⟨List.nodup_cons.mpr ⟨hname, hms.1⟩, List.forall_mem_cons.mpr ⟨ha, hms.2⟩⟩
  match presence, held with
  | .required, a => exact hput h
  | .optional, some a => exact hput (h a rfl)
  | .optional, none => exact hms

mutual

/-- What a sound record is written as repeats no key. -/
theorem settled_toValue (shape : Shape) (hd : shape.distinct = true) {held : shape.Held}
    (hs : shape.Sound held) : (shape.toValue held).settled = shape.toValue held := by
  match shape with
  | .text | .natural | .integer | .real | .truth => rfl
  | .table => exact congrArg Value.object (Members.Settled.collected hs)
  | .counters =>
      refine congrArg Value.object (Members.Settled.collected ⟨?_, fun m hm => ?_⟩)
      · have hkeys : Members.keys (held.entries.map countMember) = held.entries.map Prod.fst := by
          rw [Members.keys, List.map_map]
          rfl
        refine hkeys.symm ▸ List.pairwise_map.mpr (held.ascending.imp fun hlt heq => ?_)
        exact String.lt_irrefl _ (heq ▸ hlt)
      · obtain ⟨e, _, rfl⟩ := List.mem_map.mp hm
        rfl
  | .list item =>
      have hitems {items : List item.Held} (h : ∀ i ∈ items, item.Sound i) :
          settledItems (items.map item.toValue) = items.map item.toValue := by
        rw [settledItems_eq_map, List.map_map]
        exact List.map_congr_left fun i hi => settled_toValue item hd (h i hi)
      exact congrArg Value.list (hitems hs)
  | .record name fields =>
      obtain ⟨helds, extra⟩ := held
      obtain ⟨hsound, hother⟩ := hs
      obtain ⟨hkeys, hvalues⟩ := settled_toMembers fields hd hsound
      refine congrArg Value.object (Members.Settled.collected ⟨?_, fun m hm => ?_⟩)
      · rw [Members.keys, List.map_append]
        refine List.nodup_append.mpr ⟨hkeys, hother.settled.1, ?_⟩
        rintro key hkey _ hextra rfl
        obtain ⟨m, hm, rfl⟩ := List.mem_map.mp hkey
        exact hother.unnamed m.1 hextra (Fields.mem_names_of_mem_toMembers hm)
      · rcases List.mem_append.mp hm with hm | hm
        · exact hvalues m hm
        · exact hother.settled.2 m hm

theorem settled_toMembers (fields : Fields) (hd : fields.distinct = true) {held : fields.Held}
    (hs : fields.Sound held) : Members.Settled (fields.toMembers held) := by
  match fields with
  | .nil => exact ⟨List.nodup_nil, fun m hm => absurd hm List.not_mem_nil⟩
  | .cons name presence shape rest =>
      obtain ⟨a, helds⟩ := held
      obtain ⟨ha, hhelds⟩ := hs
      simp only [Fields.distinct, Bool.and_eq_true, Bool.not_eq_true', List.contains_eq_mem,
        decide_eq_false_iff_not] at hd
      obtain ⟨⟨hname, hshape⟩, hrest⟩ := hd
      refine Presence.settled_toMembers (ha.imp fun _ h => settled_toValue shape hshape h) ?_
        (settled_toMembers rest hrest hhelds)
      intro hkey
      obtain ⟨m, hm, rfl⟩ := List.mem_map.mp hkey
      exact hname (Fields.mem_names_of_mem_toMembers hm)

end

/-! ## The new text -/

/-- A value that repeats no key is read as it was written. -/
theorem Value.ofBytes_write {v : Value} (hsettled : v.settled = v)
    (hdepth : v.depth ≤ greatestDepth) (hreals : ∀ x ∈ v.reals, x.ReadsBack) :
    Value.ofBytes v.write = .ok v := by
  have hraw := gives_raw_write v hdepth hreals Reader.ends_nil
  rw [List.append_nil] at hraw
  have hvalue : Reader.Gives (Reader.value greatestDepth) v.write v [] :=
    (Reader.readsAs_value greatestDepth).mpr ⟨v, hraw, congrArg some hsettled⟩
  exact Reader.run_eq_ok.mpr ⟨[], hvalue, rfl⟩

/-- A string is read as the text that it was written for. -/
theorem Value.ofBytes_writeString (s : String) : Value.ofBytes (writeString s) = .ok (.text s) := by
  have hreals : ∀ x ∈ (Value.text s).reals, x.ReadsBack := fun x hx => nomatch hx
  exact Value.ofBytes_write (v := .text s) rfl (Nat.zero_le greatestDepth) hreals

namespace Record

variable {α : Type} [Record α]

/-- What was read of a text is what its tree holds. -/
theorem exists_raw_of_ofBytes {input : Bytes} {a : α} (h : ofBytes input = .ok a) :
    ∃ w rest, Reader.Gives (Reader.raw greatestDepth) input w rest ∧
      rest.dropWhile Reader.isBlank = [] ∧ (shape α).ofValue? w = some (held a) := by
  obtain ⟨rest, h, hrest⟩ := Reader.run_eq_ok.mp h
  obtain ⟨held', hread, rfl⟩ := Reader.gives_map.mp h
  obtain ⟨w, hw, hof⟩ := (Reader.readsAs_shape (shape α) greatestDepth).mp hread
  exact ⟨w, rest, hw, hrest, by rw [held_ofHeld]; exact hof⟩

/-- A tree that is written is read as what it holds. -/
theorem ofBytes_write {w : Value} {a : α} (hof : (shape α).ofValue? w = some (held a))
    (hdepth : w.depth ≤ greatestDepth) (hreals : ∀ x ∈ w.reals, x.ReadsBack) :
    ofBytes w.write = .ok a := by
  have hraw := gives_raw_write w hdepth hreals Reader.ends_nil
  rw [List.append_nil] at hraw
  have hread := (Reader.readsAs_shape (shape α) greatestDepth).mpr ⟨w, hraw, hof⟩
  exact Reader.run_eq_ok.mpr
    ⟨[], Reader.gives_map.mpr ⟨held a, hread, (ofHeld_held a).symm⟩, rfl⟩

/-- What was read is the value of the text, in normal form and arranged, and no deeper than a reader
goes. -/
theorem document_ofBytes {input : Bytes} {a : α} (h : ofBytes input = .ok a) :
    ∃ v, Value.ofBytes input = .ok v ∧ document a = (shape α).arranged ((shape α).normal v) ∧
      (document a).depth ≤ greatestDepth := by
  obtain ⟨w, rest, hw, hrest, hof⟩ := exists_raw_of_ofBytes h
  have hdocument : document a = (shape α).arranged ((shape α).normal w.settled) :=
    toValue_ofValue (shape α) hof
  have hvalue : Reader.Gives (Reader.value greatestDepth) input w.settled rest :=
    (Reader.readsAs_value greatestDepth).mpr ⟨w, hw, rfl⟩
  refine ⟨w.settled, Reader.run_eq_ok.mpr ⟨rest, hvalue, hrest⟩, hdocument, ?_⟩
  rw [hdocument]
  calc _ ≤ ((shape α).normal w.settled).depth := depth_arranged_le _ _
    _ ≤ w.settled.depth := depth_normal_le _ _
    _ ≤ w.depth := depth_settled_le _
    _ ≤ greatestDepth := Reader.depth_le_of_gives_raw hw

/-- **What was read is written as the value that it was read from**, in normal form and arranged. -/
theorem toBytes_ofBytes (hd : (shape α).distinct = true) {input : Bytes} {a : α}
    (h : ofBytes input = .ok a) (hreals : ∀ x ∈ (document a).reals, x.ReadsBack) :
    ∃ v, Value.ofBytes input = .ok v ∧ document a = (shape α).arranged ((shape α).normal v) ∧
      Value.ofBytes (toBytes a) = .ok (document a) := by
  obtain ⟨v, hv, hdocument, hdepth⟩ := document_ofBytes h
  have hsettled : (document a).settled = document a :=
    settled_toValue (shape α) hd (sound_ofBytes h)
  rw [toBytes, write_eq_toValue]
  exact ⟨v, hv, hdocument, Value.ofBytes_write hsettled hdepth hreals⟩

end Record

end CrashCourier.Json
