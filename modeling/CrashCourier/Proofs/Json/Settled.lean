import CrashCourier.Json.Shape
import CrashCourier.Proofs.Json.Tree

/-!
# Repeated keys

Of the values of a repeated key a free value keeps the last one, in the place of the first. `settled`
does this to a tree, in every object of it, and reading a free value is reading the tree and settling
it.

What has been settled stays as it is. This is why a value that was read once can be written and read
again without a change, and `Members.Settled` is the form in which that is carried along: the keys
differ, and the values are settled.
-/

namespace CrashCourier.Json

namespace Members

/-- The members with each key at its first place and with its last value. -/
def collected (members : List (String × Value)) : Members :=
  members.foldl (fun taken m => set m.1 m.2 taken) []

end Members

mutual

/-- The value with the members of each of its objects collected. -/
def Value.settled : Value → Value
  | .null => .null
  | .truth b => .truth b
  | .number n => .number n
  | .text s => .text s
  | .list items => .list (settledItems items)
  | .object members => .object (Members.collected (settledMembers members))

/-- The items of an array, settled. -/
def settledItems : List Value → List Value
  | [] => []
  | v :: rest => v.settled :: settledItems rest

/-- The members of an object with their values settled. -/
def settledMembers : List (String × Value) → List (String × Value)
  | [] => []
  | (k, v) :: rest => (k, v.settled) :: settledMembers rest

end

theorem settledItems_eq_map (items : List Value) : settledItems items = items.map Value.settled := by
  induction items with
  | nil => rfl
  | cons v rest ih => rw [settledItems, ih, List.map_cons]

theorem settledMembers_eq_map (members : List (String × Value)) :
    settledMembers members = members.map fun m => (m.1, m.2.settled) := by
  induction members with
  | nil => rfl
  | cons m rest ih => rw [settledMembers, ih, List.map_cons]

/-! ## Setting a key -/

namespace Members

theorem mem_set {key : String} {value : Value} {members : Members} {m : String × Value}
    (h : m ∈ set key value members) : m = (key, value) ∨ m ∈ members := by
  induction members with
  | nil => exact .inl (List.mem_singleton.mp h)
  | cons head rest ih =>
      obtain ⟨k, v⟩ := head
      rw [set] at h
      by_cases hk : k = key
      · rw [if_pos hk] at h
        rcases List.mem_cons.mp h with rfl | h
        · exact .inl (by rw [hk])
        · exact .inr (List.mem_cons_of_mem _ h)
      · rw [if_neg hk] at h
        rcases List.mem_cons.mp h with rfl | h
        · exact .inr List.mem_cons_self
        · exact (ih h).imp_right (List.mem_cons_of_mem _)

theorem keys_set (key : String) (value : Value) (members : Members) :
    keys (set key value members) =
      if key ∈ keys members then keys members else keys members ++ [key] := by
  induction members with
  | nil => rfl
  | cons head rest ih =>
      obtain ⟨k, v⟩ := head
      rw [set]
      by_cases hk : k = key
      · subst hk
        have hmem : k ∈ keys ((k, v) :: rest) := List.mem_cons_self
        rw [if_pos rfl, if_pos hmem]
        rfl
      · have hmem : key ∈ keys ((k, v) :: rest) ↔ key ∈ keys rest := by
          rw [keys, List.map_cons, List.mem_cons]
          exact ⟨fun h => h.resolve_left (Ne.symm hk), .inr⟩
        rw [if_neg hk]
        show k :: keys (set key value rest) = _
        rw [ih]
        by_cases hin : key ∈ keys rest
        · rw [if_pos hin, if_pos (hmem.mpr hin)]
          rfl
        · rw [if_neg hin, if_neg (fun h => hin (hmem.mp h))]
          rfl

theorem nodup_keys_set {key : String} {value : Value} {members : Members}
    (h : (keys members).Nodup) : (keys (set key value members)).Nodup := by
  rw [keys_set]
  by_cases hin : key ∈ keys members
  · rw [if_pos hin]
    exact h
  · rw [if_neg hin]
    refine List.nodup_append.mpr ⟨h, by simp, ?_⟩
    intro k hk k' hk' heq
    rw [List.mem_singleton.mp hk'] at heq
    exact hin (heq ▸ hk)

/-- A new key goes to the end. -/
theorem set_of_not_mem {key : String} {value : Value} {members : Members}
    (h : key ∉ keys members) : set key value members = members ++ [(key, value)] := by
  induction members with
  | nil => rfl
  | cons head rest ih =>
      obtain ⟨k, v⟩ := head
      rw [keys, List.map_cons, List.mem_cons, not_or] at h
      rw [set, if_neg (Ne.symm h.1), ih h.2]
      rfl

/-! ## Collecting -/

/-- Members put to those that are there already. -/
theorem foldl_set_of_nodup {members taken : List (String × Value)}
    (h : (keys (taken ++ members)).Nodup) :
    members.foldl (fun taken m => set m.1 m.2 taken) taken = taken ++ members := by
  induction members generalizing taken with
  | nil => exact (List.append_nil _).symm
  | cons m members ih =>
      have hnew : m.1 ∉ keys taken := by
        intro hmem
        rw [keys, List.map_append, List.nodup_append] at h
        exact h.2.2 m.1 hmem m.1 (List.mem_map_of_mem List.mem_cons_self) rfl
      have hset : set m.1 m.2 taken = taken ++ [m] := set_of_not_mem hnew
      rw [List.foldl_cons, hset, ih]
      · simp
      · simpa using h

/-- Members whose keys differ are collected as they are. -/
theorem collected_of_nodup {members : List (String × Value)} (h : (keys members).Nodup) :
    collected members = members :=
  @foldl_set_of_nodup members [] h

theorem nodup_keys_foldl_set {members : List (String × Value)} {taken : Members}
    (h : (keys taken).Nodup) :
    (keys (members.foldl (fun taken m => set m.1 m.2 taken) taken)).Nodup := by
  induction members generalizing taken with
  | nil => exact h
  | cons m members ih => exact ih (nodup_keys_set h)

theorem nodup_keys_collected (members : List (String × Value)) :
    (keys (collected members)).Nodup :=
  nodup_keys_foldl_set List.nodup_nil

theorem mem_foldl_set {members : List (String × Value)} {taken : Members} {m : String × Value}
    (h : m ∈ members.foldl (fun taken m => set m.1 m.2 taken) taken) : m ∈ taken ∨ m ∈ members := by
  induction members generalizing taken with
  | nil => exact .inl h
  | cons head members ih =>
      rcases ih h with h | h
      · rcases mem_set h with rfl | h
        · exact .inr List.mem_cons_self
        · exact .inl h
      · exact .inr (List.mem_cons_of_mem _ h)

/-- Nothing new is collected. -/
theorem mem_of_mem_collected {members : List (String × Value)} {m : String × Value}
    (h : m ∈ collected members) : m ∈ members :=
  (mem_foldl_set h).resolve_left List.not_mem_nil

/-! ## Settled members -/

/-- The keys differ and the values are settled. -/
def Settled (members : Members) : Prop :=
  (keys members).Nodup ∧ ∀ m ∈ members, m.2.settled = m.2

theorem Settled.settledMembers_eq {members : Members} (h : ∀ m ∈ members, m.2.settled = m.2) :
    settledMembers members = members := by
  rw [settledMembers_eq_map]
  refine (List.map_congr_left ?_).trans (List.map_id _)
  intro m hm
  rw [h m hm]
  rfl

/-- Settled members are collected as they are. -/
theorem Settled.collected {members : Members} (h : Settled members) :
    Members.collected (settledMembers members) = members := by
  rw [settledMembers_eq h.2]
  exact collected_of_nodup h.1

end Members

/-! ## Settling twice -/

mutual

theorem Value.settled_settled (v : Value) : v.settled.settled = v.settled := by
  match v with
  | .null => rfl
  | .truth b => rfl
  | .number n => rfl
  | .text s => rfl
  | .list items =>
      rw [Value.settled, Value.settled]
      congr 1
      rw [settledItems_eq_map, settledItems_eq_map, List.map_map]
      exact List.map_congr_left (settled_settledItems items)
  | .object members =>
      rw [Value.settled, Value.settled]
      congr 1
      refine Members.Settled.collected ⟨Members.nodup_keys_collected _, ?_⟩
      intro m hm
      exact settled_settledMembers members m (Members.mem_of_mem_collected hm)

theorem settled_settledItems (items : List Value) :
    ∀ v ∈ items, (Value.settled ∘ Value.settled) v = v.settled := by
  match items with
  | [] => exact fun v hv => absurd hv List.not_mem_nil
  | head :: rest =>
      intro v hv
      rcases List.mem_cons.mp hv with hv | hv
      · rw [hv]
        exact Value.settled_settled head
      · exact settled_settledItems rest v hv

theorem settled_settledMembers (members : List (String × Value)) :
    ∀ m ∈ settledMembers members, m.2.settled = m.2 := by
  match members with
  | [] => exact fun m hm => absurd hm List.not_mem_nil
  | (k, v) :: rest =>
      intro m hm
      rw [settledMembers] at hm
      rcases List.mem_cons.mp hm with hm | hm
      · rw [hm]
        exact Value.settled_settled v
      · exact settled_settledMembers rest m hm

end

/-- What is collected from settled values is settled. -/
theorem Members.settled_collected (members : List (String × Value)) :
    Settled (collected (settledMembers members)) :=
  ⟨nodup_keys_collected _, fun m hm =>
    settled_settledMembers members m (mem_of_mem_collected hm)⟩

/-! ## Free values -/

namespace Reader

/-- A member of a free object is put in settled. -/
def putSettled (key : String) (v : Value) (members : Members) : Option Members :=
  some (Members.set key v.settled members)

theorem putAll_putSettled (ms : List (String × Value)) (members : Members) :
    putAll putSettled ms members =
      some ((settledMembers ms).foldl (fun taken m => Members.set m.1 m.2 taken) members) := by
  induction ms generalizing members with
  | nil => rfl
  | cons m ms ih =>
      rw [putAll, putSettled, Option.bind_some, ih]
      rfl

theorem memberAs_freeMember {depth : Nat}
    (h : ReadsAs (value depth) (raw depth) fun v => some v.settled) :
    MemberAs (freeMember depth) (raw depth) putSettled := by
  intro key members members' input rest
  unfold freeMember
  simp only [gives_bind, gives_colon, gives_pure]
  refine ⟨?_, ?_⟩
  · intro hm
    obtain ⟨_, more, hcolon, v, _, hv, rfl, rfl⟩ := hm
    obtain ⟨w, hw, hsettled⟩ := h.mp hv
    refine ⟨more, w, hcolon, hw, ?_⟩
    rw [putSettled, Option.some.inj hsettled]
  · intro hm
    obtain ⟨more, w, hcolon, hw, hput⟩ := hm
    exact ⟨(), more, hcolon, w.settled, rest, h.mpr ⟨w, hw, rfl⟩, (Option.some.inj hput).symm, rfl⟩

/-- A value is taken as its tree is, if what stands between brackets and braces is. -/
theorem takesValue_settled {list list' : Bytes → List Value → Bytes → Prop}
    {object object' : Bytes → List (String × Value) → Bytes → Prop}
    (hlist : ∀ {tail vs rest}, list tail vs rest ↔
      ∃ ws, list' tail ws rest ∧ settledItems ws = vs)
    (hobject : ∀ {tail ms rest}, object tail ms rest ↔
      ∃ ws, object' tail ws rest ∧ Members.collected (settledMembers ws) = ms)
    {input rest : Bytes} {v : Value} :
    TakesValue list object input v rest ↔
      ∃ w, TakesValue list' object' input w rest ∧ w.settled = v := by
  refine ⟨?_, ?_⟩
  · intro h
    cases h with
    | null hinput => exact ⟨.null, .null hinput, rfl⟩
    | truth hinput => exact ⟨_, .truth hinput, rfl⟩
    | text hinput hs => exact ⟨_, .text hinput hs, rfl⟩
    | number hn => exact ⟨_, .number hn, rfl⟩
    | list hinput hvs =>
        obtain ⟨ws, hws, rfl⟩ := hlist.mp hvs
        exact ⟨_, .list hinput hws, rfl⟩
    | object hinput hms =>
        obtain ⟨ws, hws, rfl⟩ := hobject.mp hms
        exact ⟨_, .object hinput hws, rfl⟩
  · intro h
    obtain ⟨w, hw, rfl⟩ := h
    cases hw with
    | null hinput => exact .null hinput
    | truth hinput => exact .truth hinput
    | text hinput hs => exact .text hinput hs
    | number hn => exact .number hn
    | list hinput hvs => exact .list hinput (hlist.mpr ⟨_, hvs, rfl⟩)
    | object hinput hms => exact .object hinput (hobject.mpr ⟨_, hms, rfl⟩)

/-- The forms of a free value. -/
theorem gives_value_forms {depth : Nat} {input rest : Bytes} {v : Value} :
    Gives (value depth) input v rest ↔
      TakesValue (Within (fun inner => items (value inner)) depth)
        (Within (fun inner => members (freeMember inner) []) depth)
        (input.dropWhile isBlank) v rest := by
  have hvalue : value depth = nested (fun inner => items (value inner))
      (fun inner => members (freeMember inner) []) depth := by
    cases depth with
    | zero => rfl
    | succ depth => rfl
  rw [hvalue, gives_nested]

theorem mapM_settled (ws : List Value) :
    ws.mapM (fun v => some v.settled) = some (settledItems ws) := by
  induction ws with
  | nil => rfl
  | cons w ws ih =>
      rw [List.mapM_cons, ih]
      rfl

/-- **A free value is its tree, settled.** -/
theorem readsAs_value (depth : Nat) :
    ReadsAs (value depth) (raw depth) fun v => some v.settled := by
  induction depth with
  | zero =>
      intro input rest v
      rw [gives_value_forms]
      simp only [gives_raw, Option.some.injEq]
      refine takesValue_settled ?_ ?_
      · intro tail vs rest
        exact ⟨fun h => absurd h not_within_zero, fun ⟨_, h, _⟩ => absurd h not_within_zero⟩
      · intro tail ms rest
        exact ⟨fun h => absurd h not_within_zero, fun ⟨_, h, _⟩ => absurd h not_within_zero⟩
  | succ depth ih =>
      intro input rest v
      rw [gives_value_forms]
      simp only [gives_raw, Option.some.injEq]
      refine takesValue_settled ?_ ?_
      · intro tail vs rest
        rw [within_succ, gives_items_as ih (shortens_raw depth)]
        refine exists_congr fun ws => and_congr rawItems_succ.symm ?_
        rw [mapM_settled, Option.some.injEq]
      · intro tail ms rest
        rw [within_succ, gives_members_as (memberAs_freeMember ih) (leaves_raw depth)]
        refine exists_congr fun ws => and_congr rawMembers_succ.symm ?_
        rw [putAll_putSettled, Option.some.injEq]
        rfl

end Reader

end CrashCourier.Json
