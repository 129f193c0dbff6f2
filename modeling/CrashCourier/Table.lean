/-!
# Tables in ascending order

A table gives texts values. Its keys ascend by code points, so that two tables of the same entries
are equal, whatever the order in which the entries came.
-/

namespace CrashCourier

/-- The entries with one added in its place, or with a new value if its key is there. -/
def insertEntry {α : Type} (key : String) (value : α) : List (String × α) → List (String × α)
  | [] => [(key, value)]
  | (k, v) :: rest =>
    if key < k then (key, value) :: (k, v) :: rest
    else if key = k then (key, value) :: rest
    else (k, v) :: insertEntry key value rest

/-- The keys ascend. -/
def Ascending {α : Type} (entries : List (String × α)) : Prop :=
  entries.Pairwise fun a b => a.1 < b.1

theorem mem_insertEntry {α : Type} {key : String} {value : α} {entries : List (String × α)}
    {e : String × α} (h : e ∈ insertEntry key value entries) : e = (key, value) ∨ e ∈ entries := by
  induction entries with
  | nil => simpa [insertEntry] using h
  | cons head rest ih =>
    unfold insertEntry at h
    split at h
    · simpa using h
    · split at h
      · rcases List.mem_cons.1 h with h | h
        · exact .inl h
        · exact .inr (List.mem_cons_of_mem _ h)
      · rcases List.mem_cons.1 h with h | h
        · exact .inr (h ▸ List.mem_cons_self)
        · exact (ih h).imp_right (List.mem_cons_of_mem _)

theorem ascending_insertEntry {α : Type} (key : String) (value : α)
    {entries : List (String × α)} (h : Ascending entries) :
    Ascending (insertEntry key value entries) := by
  induction entries with
  | nil => simp [insertEntry, Ascending]
  | cons head rest ih =>
    obtain ⟨hhead, hrest⟩ := List.pairwise_cons.1 h
    unfold insertEntry
    split
    case isTrue hlt =>
      refine List.pairwise_cons.2 ⟨fun e he => ?_, h⟩
      rcases List.mem_cons.1 he with rfl | he
      · exact hlt
      · exact String.lt_trans hlt (hhead e he)
    case isFalse hlt =>
      split
      case isTrue heq => exact List.pairwise_cons.2 ⟨fun e he => heq ▸ hhead e he, hrest⟩
      case isFalse hne =>
        refine List.pairwise_cons.2 ⟨fun e he => ?_, ih hrest⟩
        rcases mem_insertEntry he with rfl | he
        · exact Decidable.byContradiction fun hgt =>
            hne (String.le_antisymm (String.not_lt.1 hgt) (String.not_lt.1 hlt))
        · exact hhead e he

theorem insertEntry_of_lt {α : Type} {key : String} (a : α) {entries : List (String × α)}
    (h : ∀ e ∈ entries, e.1 < key) : insertEntry key a entries = entries ++ [(key, a)] := by
  induction entries with
  | nil => rfl
  | cons e rest ih =>
    have hlt := h e List.mem_cons_self
    have hrest := ih fun e he => h e (List.mem_cons_of_mem _ he)
    have hne : key ≠ e.1 := fun heq => String.lt_irrefl _ (heq ▸ hlt)
    rw [insertEntry, if_neg (String.lt_asymm hlt), if_neg hne, hrest]
    rfl

/-- Texts with values, the texts ascending. -/
structure Table (α : Type) where
  /-- The keys with their values. -/
  entries : List (String × α)
  /-- The keys ascend. -/
  ascending : Ascending entries
  deriving DecidableEq

namespace Table

variable {α : Type}

/-- No entries. -/
def empty : Table α := ⟨[], List.Pairwise.nil⟩

/-- Gives a key a value, in place of any that it has. -/
def insert (key : String) (value : α) (t : Table α) : Table α :=
  ⟨insertEntry key value t.entries, ascending_insertEntry key value t.ascending⟩

/-- The table of a list of entries; of the values of one key the last counts. -/
def ofList (entries : List (String × α)) : Table α :=
  entries.foldl (fun t e => t.insert e.1 e.2) empty

/-- Entries that ascend go behind each other. -/
theorem foldl_insert {entries : List (String × α)} {t t' : Table α}
    (h : t'.entries = t.entries ++ entries) :
    entries.foldl (fun t e => t.insert e.1 e.2) t = t' := by
  induction entries generalizing t with
  | nil =>
    obtain ⟨entries, _⟩ := t
    obtain ⟨entries', _⟩ := t'
    rw [List.append_nil] at h
    obtain rfl : entries' = entries := h
    rfl
  | cons e entries ih =>
    have hasc := t'.ascending
    unfold Ascending at hasc
    rw [h] at hasc
    have hlt : ∀ e' ∈ t.entries, e'.1 < e.1 := fun e' he' =>
      (List.pairwise_append.mp hasc).2.2 e' he' e List.mem_cons_self
    have hinsert : (t.insert e.1 e.2).entries = t.entries ++ [e] := insertEntry_of_lt e.2 hlt
    refine ih (t := t.insert e.1 e.2) ?_
    rw [h, hinsert, List.append_assoc]
    rfl

/-- A table is that of its entries. -/
theorem ofList_entries (t : Table α) : ofList t.entries = t :=
  foldl_insert rfl

end Table

end CrashCourier
