import CrashCourier.Proofs.Json.Normal
import CrashCourier.Proofs.Json.Schema

/-!
# Another order of members

What a shape holds of a value does not depend on the order of members, if no object repeats a key: of
values that are alike it holds the same, and it holds something of both or of neither
(`Shape.Holds.exists_alike`).

Where the keys differ, members are known by their keys. So the members of one name are one member at the
most, wherever it stands, and what is kept of the others has the same keys with the same values.
-/

namespace CrashCourier.Json

/-- Induction on a value, with the items of an array and the members of an object at hand. -/
@[elab_as_elim]
theorem Value.memRec {motive : Value → Prop}
    (scalar : ∀ v : Value, (∀ vs, v ≠ .list vs) → (∀ ms, v ≠ .object ms) → motive v)
    (list : ∀ vs, (∀ v ∈ vs, motive v) → motive (.list vs))
    (object : ∀ ms : List (String × Value), (∀ m ∈ ms, motive m.2) → motive (.object ms))
    (v : Value) : motive v := by
  cases v with
  | null | truth _ | number _ | text _ => exact scalar _ nofun nofun
  | list vs => exact list vs (items vs)
  | object ms => exact object ms (members ms)
where
  items : ∀ vs : List Value, ∀ v ∈ vs, motive v
    | [] => List.forall_mem_nil _
    | v :: vs => List.forall_mem_cons.mpr ⟨memRec scalar list object v, items vs⟩
  members : ∀ ms : List (String × Value), ∀ m ∈ ms, motive m.2
    | [] => List.forall_mem_nil _
    | (_, v) :: ms => List.forall_mem_cons.mpr ⟨memRec scalar list object v, members ms⟩

theorem exists_mem_of_forall₂ {α β : Type} {r : α → β → Prop} {as : List α} {bs : List β}
    (h : List.Forall₂ r as bs) {a : α} (ha : a ∈ as) : ∃ b ∈ bs, r a b := by
  induction h with
  | nil => exact absurd ha List.not_mem_nil
  | cons hr _ ih =>
      rcases List.mem_cons.mp ha with rfl | ha
      · exact ⟨_, List.mem_cons_self, hr⟩
      · obtain ⟨b, hb, hr⟩ := ih ha
        exact ⟨b, List.mem_cons_of_mem _ hb, hr⟩

/-! ## Members that are alike -/

/-- The members are the same but for their order, and for the order of members in their values. -/
def Members.Alike (ms ns : Members) : Prop :=
  ∃ ks, AlikeMembers ms ks ∧ ks.Perm ns

theorem alikeMembers_iff {ms ns : Members} :
    AlikeMembers ms ns ↔ List.Forall₂ (fun m n => m.1 = n.1 ∧ m.2.Alike n.2) ms ns := by
  constructor
  · intro h
    induction ms generalizing ns with
    | nil =>
        cases h
        exact .nil
    | cons m ms ih =>
        cases h with
        | cons hv hothers => exact .cons ⟨rfl, hv⟩ (ih hothers)
  · intro h
    induction h with
    | nil => exact .nil
    | @cons m n _ _ hmember _ ih =>
        obtain ⟨key, v⟩ := m
        obtain ⟨_, w⟩ := n
        obtain ⟨rfl, hv⟩ := hmember
        exact .cons hv ih

section

variable {v w : Value} {ms ns : Members}

theorem Value.Alike.eq_of_scalar (h : v.Alike w) (hlist : ∀ vs, v ≠ .list vs)
    (hobject : ∀ ms, v ≠ .object ms) : w = v := by
  cases h with
  | same => rfl
  | list => exact absurd rfl (hlist _)
  | object => exact absurd rfl (hobject _)

theorem Value.Alike.of_list {vs : List Value} (h : (Value.list vs).Alike w) :
    ∃ ws, w = .list ws ∧ List.Forall₂ Value.Alike vs ws := by
  cases h with
  | same => exact ⟨vs, rfl, List.forall₂_same.mpr fun v _ => .same v⟩
  | list h => exact ⟨_, rfl, h⟩

theorem Value.Alike.of_object (h : (Value.object ms).Alike w) :
    ∃ ns, w = .object ns ∧ Members.Alike ms ns := by
  cases h with
  | same => exact ⟨ms, rfl, ms, alikeMembers_self ms, .refl ms⟩
  | object h hperm => exact ⟨_, rfl, _, h, hperm⟩

namespace Members

theorem Alike.exists_of_mem (h : Alike ms ns) {m : String × Value} (hm : m ∈ ms) :
    ∃ n ∈ ns, n.1 = m.1 ∧ m.2.Alike n.2 := by
  obtain ⟨ks, halike, hperm⟩ := h
  obtain ⟨n, hn, hkey, hv⟩ := exists_mem_of_forall₂ (alikeMembers_iff.mp halike) hm
  exact ⟨n, hperm.mem_iff.mp hn, hkey.symm, hv⟩

theorem Alike.exists_of_mem_right (h : Alike ms ns) {n : String × Value} (hn : n ∈ ns) :
    ∃ m ∈ ms, m.1 = n.1 ∧ m.2.Alike n.2 := by
  obtain ⟨ks, halike, hperm⟩ := h
  exact exists_mem_of_forall₂ (alikeMembers_iff.mp halike).flip (hperm.mem_iff.mpr hn)

theorem Alike.perm_keys (h : Alike ms ns) : (keys ms).Perm (keys ns) := by
  obtain ⟨ks, halike, hperm⟩ := h
  have hkeys : keys ms = keys ks := by
    have hmembers := alikeMembers_iff.mp halike
    clear halike hperm
    induction hmembers with
    | nil => rfl
    | cons hmember _ ih =>
        rw [keys, keys] at ih ⊢
        rw [List.map_cons, List.map_cons, hmember.1, ih]
  rw [hkeys]
  exact hperm.map _

theorem Alike.length_eq (h : Alike ms ns) : ms.length = ns.length := by
  have hlength := h.perm_keys.length_eq
  rwa [keys, keys, List.length_map, List.length_map] at hlength

/-- A choice of keys leaves members that are alike. -/
theorem Alike.filter (h : Alike ms ns) (p : String → Bool) :
    Alike (ms.filter fun m => p m.1) (ns.filter fun m => p m.1) := by
  obtain ⟨ks, halike, hperm⟩ := h
  refine ⟨ks.filter fun m => p m.1, alikeMembers_iff.mpr ?_, hperm.filter _⟩
  refine List.rel_filter (fun m n hmn => ?_) (alikeMembers_iff.mp halike)
  show p m.1 = true ↔ p n.1 = true
  rw [hmn.1]

theorem Alike.valuesOf_nil (h : Alike ms ns) {key : String} (hms : valuesOf key ms = []) :
    valuesOf key ns = [] := by
  have hlength := (h.filter fun k => k = key).length_eq
  rw [List.map_eq_nil_iff.mp hms] at hlength
  exact List.map_eq_nil_iff.mpr (List.length_eq_zero_iff.mp hlength.symm)

theorem Alike.valuesOf_singleton (h : Alike ms ns) {key : String} (hms : valuesOf key ms = [v]) :
    ∃ w, valuesOf key ns = [w] ∧ v.Alike w := by
  have hnamed := h.filter fun k => k = key
  rw [filter_eq_singleton hms] at hnamed
  obtain ⟨n, hn⟩ := List.length_eq_one_iff.mp hnamed.length_eq.symm
  obtain ⟨n', hn', _, hv⟩ := hnamed.exists_of_mem (List.mem_singleton.mpr rfl)
  rw [hn] at hn'
  obtain rfl := List.mem_singleton.mp hn'
  exact ⟨n'.2, by rw [valuesOf, hn]; rfl, hv⟩

end Members

end

/-! ## What is the same of values that are alike -/

theorem Value.Alike.depth_le {v w : Value} (h : v.Alike w) : w.depth ≤ v.depth := by
  induction v using Value.memRec generalizing w with
  | scalar v hlist hobject => rw [h.eq_of_scalar hlist hobject]
  | list vs ih =>
      obtain ⟨ws, rfl, hws⟩ := h.of_list
      refine Nat.succ_le_succ (depthItems_le.mpr fun w hw => ?_)
      obtain ⟨v, hv, halike⟩ := exists_mem_of_forall₂ hws.flip hw
      exact Nat.le_trans (ih v hv halike) (depth_le_of_mem_items hv)
  | object ms ih =>
      obtain ⟨ns, rfl, hns⟩ := h.of_object
      refine Nat.succ_le_succ (depthMembers_le.mpr fun n hn => ?_)
      obtain ⟨m, hm, _, halike⟩ := hns.exists_of_mem_right hn
      exact Nat.le_trans (ih m hm halike) (depth_le_of_mem_members hm)

theorem settled_object {ms : Members} : (Value.object ms).settled = .object ms ↔ Members.Settled ms :=
  ⟨Members.settled_of_object, fun h => congrArg Value.object h.collected⟩

/-- Another order repeats no key either. -/
theorem Value.Alike.settled {v w : Value} (h : v.Alike w) (hv : v.settled = v) : w.settled = w := by
  induction v using Value.memRec generalizing w with
  | scalar v hlist hobject => rw [h.eq_of_scalar hlist hobject, hv]
  | list vs ih =>
      obtain ⟨ws, rfl, hws⟩ := h.of_list
      have hmap : ws.map Value.settled = ws := by
        refine (List.map_congr_left fun w hw => ?_).trans (List.map_id ws)
        obtain ⟨v, hmem, halike⟩ := exists_mem_of_forall₂ hws.flip hw
        exact ih v hmem halike (settled_of_list hv v hmem)
      rw [Value.settled, settledItems_eq_map, hmap]
  | object ms ih =>
      obtain ⟨ns, rfl, hns⟩ := h.of_object
      obtain ⟨hkeys, hms⟩ := Members.settled_of_object hv
      refine settled_object.mpr ⟨hns.perm_keys.nodup_iff.mp hkeys, fun n hn => ?_⟩
      obtain ⟨m, hm, _, halike⟩ := hns.exists_of_mem_right hn
      exact ih m hm halike (hms m hm)

theorem sameItems_of_forall₂ {vs ws : List Value} (h : List.Forall₂ (fun v w => v.same w = true) vs ws) :
    sameItems vs ws = true := by
  induction h with
  | nil => rfl
  | cons hv _ ih => exact Bool.and_eq_true_iff.mpr ⟨hv, ih⟩

theorem sameMembers_of_forall {ms ns : Members}
    (h : ∀ m ∈ ms, ∃ w, Members.get? m.1 ns = some w ∧ m.2.same w = true) :
    sameMembers ms ns = true := by
  induction ms with
  | nil => rfl
  | cons m ms ih =>
      obtain ⟨⟨w, hget, hv⟩, hothers⟩ := List.forall_mem_cons.mp h
      rw [sameMembers, hget, ih hothers]
      exact Bool.and_eq_true_iff.mpr ⟨hv, rfl⟩

/-- The members find each other by their keys. -/
theorem Members.same_of_alike {ms ns : Members} (h : Alike ms ns) (hkeys : (keys ms).Nodup)
    (hsame : ∀ m ∈ ms, ∀ w, m.2.Alike w → m.2.same w = true) : Members.same ms ns = true := by
  refine Bool.and_eq_true_iff.mpr ⟨beq_iff_eq.mpr h.length_eq, sameMembers_of_forall fun m hm => ?_⟩
  obtain ⟨n, hn, hkey, halike⟩ := h.exists_of_mem hm
  exact ⟨n.2, hkey ▸ get_of_mem (h.perm_keys.nodup_iff.mp hkeys) hn, hsame m hm n.2 halike⟩

/-- **Values that are alike are the same**, if no object repeats a key. -/
theorem Value.Alike.same_eq_true {v w : Value} (h : v.Alike w) (hv : v.settled = v) :
    v.same w = true := by
  induction v using Value.memRec generalizing w with
  | scalar v hlist hobject =>
      rw [h.eq_of_scalar hlist hobject]
      exact Value.same_self hv
  | list vs ih =>
      obtain ⟨ws, rfl, hws⟩ := h.of_list
      have hitems : ∀ v ∈ vs, ∀ w, v.Alike w → v.same w = true :=
        fun v hmem w halike => ih v hmem halike (settled_of_list hv v hmem)
      refine sameItems_of_forall₂ (((List.forall₂_and_left vs ws).mpr ⟨hitems, hws⟩).imp ?_)
      exact fun v w hvw => hvw.1 w hvw.2
  | object ms ih =>
      obtain ⟨ns, rfl, hns⟩ := h.of_object
      obtain ⟨hkeys, hms⟩ := Members.settled_of_object hv
      exact Members.same_of_alike hns hkeys fun m hm w halike => ih m hm halike (hms m hm)

/-! ## What is held of values that are alike -/

namespace Members

/-- What is gathered of members in another order is the same. -/
theorem Gathers.same {ms ns extra extra' : Members} (h : Alike ms ns) (hms : Settled ms)
    (hextra : Gathers ms extra) (hextra' : Gathers ns extra') : Members.same extra extra' = true := by
  have hns : Settled ns := by
    have halike : (Value.object ms).Alike (.object ns) := by
      obtain ⟨ks, hks, hperm⟩ := h
      exact .object hks hperm
    exact settled_of_object (halike.settled (settled_object.mpr hms))
  -- nothing is dropped where no key is repeated
  rw [hextra.eq, hextra'.eq, hms.collected, hns.collected]
  exact same_of_alike h hms.1 fun m hm w halike => halike.same_eq_true (hms.2 m hm)

/-- Where the keys differ, each has one value at the most. -/
theorem valuesOf_cases {ms : Members} (h : (keys ms).Nodup) (key : String) :
    valuesOf key ms = [] ∨ ∃ v, valuesOf key ms = [v] := by
  induction ms with
  | nil => exact .inl rfl
  | cons m ms ih =>
      obtain ⟨k, v⟩ := m
      obtain ⟨hk, hothers⟩ := List.nodup_cons.mp h
      by_cases heq : k = key
      · subst heq
        have hnone : valuesOf k ms = [] := by
          refine List.map_eq_nil_iff.mpr (List.filter_eq_nil_iff.mpr fun m hm hkey => ?_)
          have hmem : m.1 ∈ keys ms := List.mem_map_of_mem hm
          rw [of_decide_eq_true hkey] at hmem
          exact hk hmem
        exact .inr ⟨v, by rw [valuesOf_cons_self, hnone]⟩
      · rw [valuesOf_cons_of_ne heq]
        exact ih hothers

theorem isWhole_of_alike {v w : Value} {z : Int} (h : v.Alike w) (hv : v.IsWhole z) : w = v := by
  obtain ⟨n, rfl, _⟩ := hv
  exact h.eq_of_scalar nofun nofun

/-- The same is counted in another order. -/
theorem Counts.alike {ms ns : Members} {t : Table UInt64} (h : Alike ms ns)
    (hkeys : (keys ms).Nodup) (ht : Counts ms t) : Counts ns t where
  natural n hn := by
    obtain ⟨m, hm, _, halike⟩ := h.exists_of_mem_right hn
    obtain ⟨k, hk⟩ := ht.natural m hm
    exact ⟨k, isWhole_of_alike halike hk ▸ hk⟩
  entries key n := by
    rw [ht.entries]
    -- the last value of a key is its only one
    obtain hnil | ⟨v, hv⟩ := valuesOf_cases hkeys key
    · rw [hnil, h.valuesOf_nil hnil]
    · obtain ⟨w, hw, halike⟩ := h.valuesOf_singleton hv
      obtain ⟨m, hm, rfl⟩ : ∃ m ∈ ms, m.2 = v := by
        have hmem : v ∈ valuesOf key ms := hv ▸ List.mem_singleton.mpr rfl
        obtain ⟨m, hm, hmv⟩ := List.mem_map.mp hmem
        exact ⟨m, (List.mem_filter.mp hm).1, hmv⟩
      obtain ⟨k, hk⟩ := ht.natural m hm
      rw [hw, hv, isWhole_of_alike halike hk]

theorem Settled.filter {ms : Members} (h : Settled ms) (p : String × Value → Bool) :
    Settled (ms.filter p) :=
  ⟨h.1.sublist (List.filter_sublist.map _), fun m hm => h.2 m (List.mem_filter.mp hm).1⟩

end Members

/-- The field holds the same of the values of its name. -/
theorem Presence.Holds.exists_alike {α : Type} {holds : Value → α → Prop} {same : α → α → Bool}
    (hsame : ∀ {v w a}, v.Alike w → v.settled = v → holds v a →
      ∃ b, holds w b ∧ same a b = true)
    {presence : Presence} {ms ns : Members} {name : String} {a : presence.Holding α}
    (h : Members.Alike ms ns) (hms : Members.Settled ms)
    (ha : presence.Holds holds (Members.valuesOf name ms) a) :
    ∃ b, presence.Holds holds (Members.valuesOf name ns) b ∧ presence.same same a b = true := by
  have hsettled : ∀ {v}, Members.valuesOf name ms = [v] → v.settled = v := by
    intro v hv
    have hmem : v ∈ Members.valuesOf name ms := hv ▸ List.mem_singleton.mpr rfl
    obtain ⟨m, hm, rfl⟩ := List.mem_map.mp hmem
    exact hms.2 m (List.mem_filter.mp hm).1
  match presence, a, ha with
  | .required, a, ⟨v, hvs, hv⟩ =>
      obtain ⟨w, hws, halike⟩ := h.valuesOf_singleton hvs
      obtain ⟨b, hb, heq⟩ := hsame halike (hsettled hvs) hv
      exact ⟨b, ⟨w, hws, hb⟩, heq⟩
  | .optional, none, .inl hnil => exact ⟨none, .inl (h.valuesOf_nil hnil), rfl⟩
  | .optional, none, .inr hnull =>
      obtain ⟨w, hws, halike⟩ := h.valuesOf_singleton hnull
      rw [halike.eq_of_scalar nofun nofun] at hws
      exact ⟨none, .inr hws, rfl⟩
  | .optional, some a, ⟨v, hvs, hv⟩ =>
      obtain ⟨w, hws, halike⟩ := h.valuesOf_singleton hvs
      obtain ⟨b, hb, heq⟩ := hsame halike (hsettled hvs) hv
      exact ⟨some b, ⟨w, hws, hb⟩, heq⟩

theorem exists_forall₂_sameList {α : Type} {holds : Value → α → Prop} {same : α → α → Bool}
    (hsame : ∀ {v w a}, v.Alike w → v.settled = v → holds v a →
      ∃ b, holds w b ∧ same a b = true)
    {vs ws : List Value} (h : List.Forall₂ Value.Alike vs ws) (hvs : ∀ v ∈ vs, v.settled = v)
    {as : List α} (has : List.Forall₂ holds vs as) :
    ∃ bs, List.Forall₂ holds ws bs ∧ sameList same as bs = true := by
  induction h generalizing as with
  | nil =>
      cases has
      exact ⟨[], .nil, rfl⟩
  | cons hv _ ih =>
      cases has with
      | cons ha hothers =>
          obtain ⟨hsettled, hvs⟩ := List.forall_mem_cons.mp hvs
          obtain ⟨b, hb, heq⟩ := hsame hv hsettled ha
          obtain ⟨bs, hbs, heqs⟩ := ih hvs hothers
          exact ⟨b :: bs, .cons hb hbs, Bool.and_eq_true_iff.mpr ⟨heq, heqs⟩⟩

mutual

/-- **A shape holds the same of values that are alike**, if no object repeats a key. -/
theorem Shape.Holds.exists_alike (shape : Shape) {v w : Value} {a : shape.Held} (h : v.Alike w)
    (hv : v.settled = v) (ha : shape.Holds v a) :
    ∃ b, shape.Holds w b ∧ shape.same a b = true := by
  match shape with
  | .text =>
      obtain rfl : v = .text a := ha
      exact ⟨a, h.eq_of_scalar nofun nofun, beq_self_eq_true (α := String) a⟩
  | .natural => exact ⟨a, Members.isWhole_of_alike h ha ▸ ha, beq_self_eq_true (α := UInt64) a⟩
  | .integer => exact ⟨a, Members.isWhole_of_alike h ha ▸ ha, beq_self_eq_true (α := Int64) a⟩
  | .real =>
      obtain ⟨n, rfl, hn⟩ := ha
      exact ⟨a, ⟨n, h.eq_of_scalar nofun nofun, hn⟩, Binary64.same_self a⟩
  | .truth =>
      obtain rfl : v = .truth a := ha
      exact ⟨a, h.eq_of_scalar nofun nofun, beq_self_eq_true (α := Bool) a⟩
  | .table =>
      obtain ⟨ms, rfl, hextra⟩ := ha
      obtain ⟨ns, rfl, hns⟩ := h.of_object
      exact ⟨_, ⟨ns, rfl, Members.gathers_collected ns⟩,
        hextra.same hns (Members.settled_of_object hv) (Members.gathers_collected ns)⟩
  | .counters =>
      obtain ⟨ms, rfl, hcounts⟩ := ha
      obtain ⟨ns, rfl, hns⟩ := h.of_object
      exact ⟨a, ⟨ns, rfl, hcounts.alike hns (Members.settled_of_object hv).1⟩,
        beq_self_eq_true (α := Table UInt64) a⟩
  | .list item =>
      obtain ⟨vs, rfl, has⟩ := ha
      obtain ⟨ws, rfl, hws⟩ := h.of_list
      obtain ⟨bs, hbs, heq⟩ := exists_forall₂_sameList (Shape.Holds.exists_alike item) hws
        (settled_of_list hv) has
      exact ⟨bs, ⟨ws, rfl, hbs⟩, heq⟩
  | .record name fields =>
      obtain ⟨ms, rfl, hhelds, hextra⟩ := ha
      obtain ⟨ns, rfl, hns⟩ := h.of_object
      have hms := Members.settled_of_object hv
      obtain ⟨bs, hbs, heq⟩ := Fields.Hold.exists_alike fields hns hms hhelds
      -- what no field asks for is kept, and it is alike as well
      have hothers := hns.filter fun key => key ∉ fields.names
      have hgathers := Members.gathers_collected (ns.filter fun m => m.1 ∉ fields.names)
      exact ⟨(bs, _), ⟨ns, rfl, hbs, hgathers⟩,
        Bool.and_eq_true_iff.mpr ⟨heq, hextra.same hothers (hms.filter _) hgathers⟩⟩

theorem Fields.Hold.exists_alike (fields : Fields) {ms ns : Members} {as : fields.Held}
    (h : Members.Alike ms ns) (hms : Members.Settled ms) (has : fields.Hold ms as) :
    ∃ bs, fields.Hold ns bs ∧ fields.same as bs = true := by
  match fields with
  | .nil => exact ⟨(), trivial, rfl⟩
  | .cons name presence shape rest =>
      obtain ⟨ha, has⟩ := has
      obtain ⟨b, hb, heq⟩ := Presence.Holds.exists_alike (Shape.Holds.exists_alike shape) h hms ha
      obtain ⟨bs, hbs, heqs⟩ := Fields.Hold.exists_alike rest h hms has
      exact ⟨(b, bs), ⟨hb, hbs⟩, Bool.and_eq_true_iff.mpr ⟨heq, heqs⟩⟩

end

end CrashCourier.Json
