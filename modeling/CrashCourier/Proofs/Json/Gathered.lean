import CrashCourier.Proofs.Json.Grammar
import Mathlib.Data.List.Sort

/-!
# Which members count

An object may repeat a key. What is kept of it is said key by key, by the values that the key has in
the order in which they are written (`Members.valuesOf`): of free members each key keeps its first place
and its last value (`Members.Gathers`), and a table of counts keeps the last count (`Members.Counts`).

The readers put members in one after the other. The two descriptions determine the result, and so they
say the same as the readers do.
-/

namespace CrashCourier.Json

namespace Members

/-- The values of a key, in the order in which they are written. -/
def valuesOf (key : String) (ms : Members) : List Value :=
  (ms.filter fun m => m.1 = key).map (·.2)

theorem valuesOf_cons_self (key : String) (v : Value) (ms : Members) :
    valuesOf key ((key, v) :: ms) = v :: valuesOf key ms := by
  rw [valuesOf, List.filter_cons_of_pos (by simp)]
  rfl

theorem valuesOf_cons_of_ne {key key' : String} (h : key' ≠ key) (v : Value) (ms : Members) :
    valuesOf key ((key', v) :: ms) = valuesOf key ms := by
  rw [valuesOf, List.filter_cons_of_neg (by simpa using h)]
  rfl

/-- The members of other keys have no say in it. -/
theorem valuesOf_filter {key : String} {p : String → Bool} (h : p key = true) (ms : Members) :
    valuesOf key (ms.filter fun m => p m.1) = valuesOf key ms := by
  unfold valuesOf
  rw [List.filter_filter]
  congr 1
  refine List.filter_congr fun m _ => ?_
  by_cases hm : m.1 = key
  · simp [hm, h]
  · simp [hm]

/-! ## Free members -/

/-- `extra` has each key of the members once, in the place where it first stands, and with the value
that it has last. -/
structure Gathers (ms extra : Members) : Prop where
  keys : keys extra = (keys ms).eraseDups
  values : ∀ key, get? key extra = (valuesOf key ms).getLast?.map Value.settled

theorem get?_set (key key' : String) (value : Value) (ms : Members) :
    get? key' (set key value ms) = if key = key' then some value else get? key' ms := by
  induction ms with
  | nil => rfl
  | cons m ms ih =>
      obtain ⟨k, v⟩ := m
      rw [set]
      by_cases hk : k = key
      · subst hk
        rw [if_pos rfl, get?, get?]
        split <;> rfl
      · rw [if_neg hk, get?, get?, ih]
        by_cases hkey : key = key'
        · subst hkey
          rw [if_pos rfl, if_pos rfl, if_neg hk]
        · rw [if_neg hkey, if_neg hkey]

/-- Members are put behind those that are there, and new keys in the order in which they come. -/
theorem keys_foldl_set (ms taken : Members) :
    keys (ms.foldl (fun taken m => set m.1 m.2 taken) taken) =
      keys taken ++ ((keys ms).filter fun key => key ∉ keys taken).eraseDups := by
  induction ms generalizing taken with
  | nil => simp [keys]
  | cons m ms ih =>
      obtain ⟨key, v⟩ := m
      rw [List.foldl_cons, ih, keys_set]
      by_cases hkey : key ∈ keys taken
      · have hfilter : (keys ((key, v) :: ms)).filter (fun key => key ∉ keys taken) =
            (keys ms).filter fun key => key ∉ keys taken :=
          List.filter_cons_of_neg (by simpa using hkey)
        rw [if_pos hkey, hfilter]
      · have hfilter : (keys ((key, v) :: ms)).filter (fun key => key ∉ keys taken) =
            key :: (keys ms).filter fun key => key ∉ keys taken :=
          List.filter_cons_of_pos (by simpa using hkey)
        rw [if_neg hkey, hfilter, List.eraseDups_cons, List.append_assoc, List.filter_filter]
        refine congrArg (fun ks => keys taken ++ key :: List.eraseDups ks) ?_
        refine List.filter_congr fun k _ => ?_
        by_cases hk : k = key <;> simp [hk]

theorem get?_foldl_set (key : String) (ms taken : Members) :
    get? key (ms.foldl (fun taken m => set m.1 m.2 taken) taken) =
      (valuesOf key ms).getLast?.or (get? key taken) := by
  induction ms generalizing taken with
  | nil => rfl
  | cons m ms ih =>
      obtain ⟨k, v⟩ := m
      rw [List.foldl_cons, ih, get?_set]
      by_cases hk : k = key
      · subst hk
        rw [if_pos rfl, valuesOf_cons_self, List.getLast?_cons]
        cases (valuesOf k ms).getLast? <;> rfl
      · rw [if_neg hk, valuesOf_cons_of_ne hk]

theorem valuesOf_settledMembers (key : String) (ms : Members) :
    valuesOf key (settledMembers ms) = (valuesOf key ms).map Value.settled := by
  unfold valuesOf
  rw [settledMembers_eq_map, List.filter_map, List.map_map, List.map_map]
  rfl

/-- **What is collected is each key in its first place with its last value.** -/
theorem gathers_collected (ms : Members) : Gathers ms (collected (settledMembers ms)) where
  keys := by
    have hkeys : Members.keys (settledMembers ms) = Members.keys ms := by
      unfold Members.keys
      rw [settledMembers_eq_map, List.map_map]
      rfl
    rw [collected, keys_foldl_set, hkeys]
    simp [Members.keys]
  values key := by
    rw [collected, get?_foldl_set, valuesOf_settledMembers, List.getLast?_map]
    cases (valuesOf key ms).getLast? <;> rfl

/-- Members with different keys are known by their keys and the values of these. -/
theorem eq_filterMap_of_nodup {ms : Members} (h : (keys ms).Nodup) :
    ms = (keys ms).filterMap fun key => (get? key ms).map fun v => (key, v) := by
  induction ms with
  | nil => rfl
  | cons m ms ih =>
      obtain ⟨key, v⟩ := m
      obtain ⟨hkey, hrest⟩ := List.nodup_cons.mp h
      have hfirst : get? key ((key, v) :: ms) = some v := if_pos rfl
      have hothers : ∀ k ∈ keys ms, get? k ((key, v) :: ms) = get? k ms := by
        intro k hk
        refine if_neg ?_
        rintro rfl
        exact hkey hk
      show _ = (key :: keys ms).filterMap _
      rw [List.filterMap_cons, hfirst]
      refine congrArg ((key, v) :: ·) ((ih hrest).trans (List.filterMap_congr fun k hk => ?_))
      rw [hothers k hk]

/-- There is one way to gather members. -/
theorem Gathers.eq {ms extra : Members} (h : Gathers ms extra) :
    extra = collected (settledMembers ms) := by
  have hcollected := gathers_collected ms
  have hkeys := h.keys.trans hcollected.keys.symm
  have hnodup := nodup_keys_collected (settledMembers ms)
  have hnodup' : (Members.keys extra).Nodup := hkeys ▸ hnodup
  rw [eq_filterMap_of_nodup hnodup, eq_filterMap_of_nodup hnodup', hkeys]
  refine List.filterMap_congr fun key _ => ?_
  rw [h.values, hcollected.values]

theorem gathers_iff {ms extra : Members} :
    Gathers ms extra ↔ collected (settledMembers ms) = extra :=
  ⟨fun h => h.eq.symm, fun h => h ▸ gathers_collected ms⟩

end Members

/-! ## Whole numbers -/

/-- The value is this whole number, written as one. -/
def Value.IsWhole (v : Value) (z : Int) : Prop :=
  ∃ n, v = .number n ∧ n.int? = some z

theorem Value.IsWhole.eq {v : Value} {z z' : Int} (h : v.IsWhole z) (h' : v.IsWhole z') : z = z' := by
  obtain ⟨n, rfl, hz⟩ := h
  obtain ⟨n', heq, hz'⟩ := h'
  rw [← Value.number.inj heq] at hz'
  exact Option.some.inj (hz.symm.trans hz')

/-- The natural numbers of 64 bits are the whole numbers that have their value. -/
theorem natural?_iff {v : Value} {n : UInt64} :
    v.number?.bind Number.natural? = some n ↔ v.IsWhole n.toNat := by
  constructor
  · intro h
    obtain ⟨k, hk, hn⟩ := Option.bind_eq_some_iff.mp h
    cases v <;> cases hk
    cases k <;> cases hn
    exact ⟨_, rfl, rfl⟩
  · rintro ⟨k, rfl, hk⟩
    cases k with
    | natural m =>
        have hint : (m.toNat : Int) = n.toNat := Option.some.inj hk
        rw [UInt64.toNat_inj.mp (Int.natCast_inj.mp hint)]
        rfl
    | negative m =>
        have hint : -(m.magnitude : Int) = n.toNat := Option.some.inj hk
        have hpos := m.magnitude_pos
        omega
    | real x => cases hk

/-- And so are the whole numbers of 64 bits with a sign. -/
theorem integer?_iff {v : Value} {i : Int64} :
    v.number?.bind Number.integer? = some i ↔ v.IsWhole i.toInt := by
  constructor
  · intro h
    obtain ⟨k, hk, hi⟩ := Option.bind_eq_some_iff.mp h
    cases v <;> cases hk
    refine ⟨_, rfl, ?_⟩
    cases k with
    | natural n =>
        rw [Number.integer?] at hi
        by_cases hn : n.toNat < Negative.greatest
        · rw [if_pos hn] at hi
          rw [← Option.some.inj hi, toInt_toInt64_of_lt hn]
          rfl
        · rw [if_neg hn] at hi
          cases hi
    | negative n =>
        have hle : n.magnitude ≤ 0x8000000000000000 := n.magnitude_le
        have hint : (Int64.ofInt (-(n.magnitude : Int))).toInt = -(n.magnitude : Int) :=
          Int64.toInt_ofInt_of_le (by omega) (by omega)
        rw [← Option.some.inj hi, hint]
        rfl
    | real x => cases hi
  · rintro ⟨k, rfl, hk⟩
    cases k with
    | natural n =>
        have hint : (n.toNat : Int) = i.toInt := Option.some.inj hk
        have hn : n.toNat < Negative.greatest := by
          have hlt := i.toInt_lt
          unfold Negative.greatest
          omega
        have hi : n.toInt64 = i := by
          rw [← Int64.toInt_inj, toInt_toInt64_of_lt hn, hint]
        exact (if_pos hn).trans (congrArg some hi)
    | negative n =>
        have hint : -(n.magnitude : Int) = i.toInt := Option.some.inj hk
        show some (Int64.ofInt (-(n.magnitude : Int))) = some i
        rw [hint, Int64.ofInt_toInt]
    | real x => cases hk

/-! ## Counts -/

/-- All members are natural numbers, and the table has each key with the last one. -/
structure Members.Counts (ms : Members) (t : Table UInt64) : Prop where
  natural : ∀ m ∈ ms, ∃ n : UInt64, m.2.IsWhole n.toNat
  entries : ∀ key (n : UInt64), (key, n) ∈ t.entries ↔
    ∃ v, (valuesOf key ms).getLast? = some v ∧ v.IsWhole n.toNat

theorem Table.mem_insert {α : Type} {t : Table α} {key key' : String} {value value' : α} :
    (key', value') ∈ (t.insert key value).entries ↔
      (key' = key ∧ value' = value) ∨ (key' ≠ key ∧ (key', value') ∈ t.entries) := by
  have hperm : (t.insert key value).entries.Perm _ := perm_insertEntry t.ascending
  rw [hperm.mem_iff]
  rw [List.mem_cons, List.mem_filter, Prod.mk.injEq, decide_eq_true_eq, and_comm (b := _ ≠ _)]

/-- Tables of the same entries are equal. -/
theorem Table.eq_of_mem_iff {α : Type} {t t' : Table α}
    (h : ∀ e, e ∈ t.entries ↔ e ∈ t'.entries) : t = t' := by
  have hirrefl : Std.Irrefl fun a b : String × α => a.1 < b.1 := ⟨fun a => String.lt_irrefl a.1⟩
  have hasymm : Std.Antisymm fun a b : String × α => a.1 < b.1 :=
    ⟨fun _ _ hab hba => absurd hba (String.lt_asymm hab)⟩
  have hentries : t.entries = t'.entries := List.Pairwise.eq_of_mem_iff t.ascending t'.ascending h
  cases t
  cases t'
  cases hentries
  rfl

namespace Members

theorem entries_of_putAll {ms : Members} {t t' : Table UInt64}
    (h : Reader.putAll putCount ms t = some t') (key : String) (n : UInt64) :
    (key, n) ∈ t'.entries ↔ (∃ v, (valuesOf key ms).getLast? = some v ∧ v.IsWhole n.toNat) ∨
      (valuesOf key ms = [] ∧ (key, n) ∈ t.entries) := by
  induction ms generalizing t with
  | nil =>
      cases h
      simp [valuesOf]
  | cons m ms ih =>
      obtain ⟨k, v⟩ := m
      obtain ⟨t₁, hput, hrest⟩ := Option.bind_eq_some_iff.mp h
      obtain ⟨n₁, hn₁, rfl⟩ := Option.map_eq_some_iff.mp hput
      have hwhole := natural?_iff.mp hn₁
      rw [ih hrest, Table.mem_insert]
      by_cases hk : k = key
      · subst hk
        rw [valuesOf_cons_self, List.getLast?_cons]
        -- the member counts if no other of its key comes behind it
        cases hvalues : valuesOf k ms with
        | nil =>
            have hlast : n = n₁ ↔ v.IsWhole n.toNat := by
              constructor
              · rintro rfl
                exact hwhole
              · intro hn
                exact UInt64.toNat_inj.mp (Int.natCast_inj.mp (hn.eq hwhole))
            simp [hlast]
        | cons w ws => simp [List.getLast?_cons]
      · rw [valuesOf_cons_of_ne hk]
        simp [Ne.symm hk]

theorem exists_putAll_putCount {ms : Members} (h : ∀ m ∈ ms, ∃ n : UInt64, m.2.IsWhole n.toNat)
    (t : Table UInt64) : ∃ t', Reader.putAll putCount ms t = some t' := by
  induction ms generalizing t with
  | nil => exact ⟨t, rfl⟩
  | cons m ms ih =>
      obtain ⟨⟨n, hn⟩, hrest⟩ := List.forall_mem_cons.mp h
      obtain ⟨t', ht'⟩ := ih hrest (t.insert m.1 n)
      have hput : putCount m.1 m.2 t = some (t.insert m.1 n) :=
        congrArg (Option.map _) (natural?_iff.mpr hn)
      exact ⟨t', by rw [Reader.putAll, hput]; exact ht'⟩

theorem natural_of_putAll {ms : Members} {t t' : Table UInt64}
    (h : Reader.putAll putCount ms t = some t') : ∀ m ∈ ms, ∃ n : UInt64, m.2.IsWhole n.toNat := by
  induction ms generalizing t with
  | nil => exact fun m hm => absurd hm List.not_mem_nil
  | cons m ms ih =>
      obtain ⟨t₁, hput, hrest⟩ := Option.bind_eq_some_iff.mp h
      obtain ⟨n, hn, _⟩ := Option.map_eq_some_iff.mp hput
      exact List.forall_mem_cons.mpr ⟨⟨n, natural?_iff.mp hn⟩, ih hrest⟩

theorem counts_of_putAll {ms : Members} {t : Table UInt64}
    (h : Reader.putAll putCount ms Table.empty = some t) : Counts ms t where
  natural := natural_of_putAll h
  entries key n := by
    have hnone : (key, n) ∉ (Table.empty : Table UInt64).entries := List.not_mem_nil
    rw [entries_of_putAll h]
    simp only [hnone, and_false, or_false]

/-- **A table is read of the members that it counts.** -/
theorem counts_iff {ms : Members} {t : Table UInt64} :
    Counts ms t ↔ Reader.putAll putCount ms Table.empty = some t := by
  refine ⟨fun h => ?_, counts_of_putAll⟩
  obtain ⟨t', ht'⟩ := exists_putAll_putCount h.natural Table.empty
  have heq : t' = t := Table.eq_of_mem_iff fun ⟨key, n⟩ =>
    ((counts_of_putAll ht').entries key n).trans (h.entries key n).symm
  rw [ht', heq]

end Members

end CrashCourier.Json
