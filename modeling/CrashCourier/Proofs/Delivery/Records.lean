import CrashCourier.Proofs.Action
import CrashCourier.Proofs.Files.Disk
import CrashCourier.Store.Memory
import Mathlib.Logic.Function.Basic

/-!
# A store as a map from numbers to records

What a pass relies on when it works on a store: that reading shows what is there, that erasing takes
away one record, and that a call that fails changes nothing. A store that keeps to this `Keeps` the
records that a view of its state shows.

The listing is left out on purpose. Nothing is lost whatever numbers a store lists, in whatever
order and however often.
-/

namespace CrashCourier

/-- What a store holds: the records under their numbers. -/
abbrev Records := Int64 → Option Bytes

namespace Records

/-- The records without those of some numbers. -/
def without (m : Records) (ids : List Int64) : Records :=
  fun id => if id ∈ ids then none else m id

@[simp] theorem without_nil (m : Records) : m.without [] = m := by
  funext id; simp [without]

theorem without_apply (m : Records) (ids : List Int64) (id : Int64) :
    m.without ids id = if id ∈ ids then none else m id := rfl

theorem without_cons (m : Records) (id : Int64) (ids : List Int64) :
    m.without (id :: ids) = (m.without [id]).without ids := by
  funext i
  by_cases h : i ∈ ids
  · simp [without, h]
  · by_cases hi : i = id <;> simp [without, h, hi]

theorem without_of_mem {m : Records} {ids : List Int64} {id : Int64} (h : id ∈ ids) :
    m.without ids id = none := by
  simp [without, h]

theorem without_of_not_mem {m : Records} {ids : List Int64} {id : Int64} (h : id ∉ ids) :
    m.without ids id = m id := by
  simp [without, h]

/-- Nothing is taken away where nothing is. -/
theorem without_singleton_of_none {m : Records} {id : Int64} (h : m id = none) :
    m.without [id] = m := by
  funext i
  by_cases hi : i = id
  · rw [without_of_mem (List.mem_singleton.mpr hi), hi, h]
  · exact without_of_not_mem (by simpa using hi)

/-- The records with one that is written, in place of any of its number. -/
def put (m : Records) (id : Int64) (content : Bytes) : Records :=
  fun i => if i = id then some content else m i

end Records

variable {σ : Type}

namespace ReportStore

/-- The store works on the records that `view` shows; a call that fails changes none. -/
structure Keeps (store : ReportStore σ) (view : σ → Records) : Prop where
  /-- Listing changes nothing. -/
  ids : ∀ {s s' : σ} {log log' : Log} {r : Except StoreFault (List Int64)},
    store.ids.perform s log = ((r, s'), log') → view s' = view s
  /-- Reading changes nothing and shows the record. -/
  read : ∀ {id : Int64} {s s' : σ} {log log' : Log} {r : Except StoreFault (Option Bytes)},
    (store.read id).perform s log = ((r, s'), log') →
    view s' = view s ∧ ∀ found, r = .ok found → found = view s id
  /-- Erasing takes one record away. -/
  delete : ∀ {id : Int64} {s s' : σ} {log log' : Log},
    (store.delete id).perform s log = ((.ok (), s'), log') → view s' = (view s).without [id]
  /-- Erasing that fails changes nothing. -/
  delete_error : ∀ {id : Int64} {s s' : σ} {log log' : Log} {fault : StoreFault},
    (store.delete id).perform s log = ((.error fault, s'), log') → view s' = view s

/-- What a store lists in a state. -/
def Listing (store : ReportStore σ) (s : σ) (log : Log) (ids : List Int64) : Prop :=
  ∃ s' log', store.ids.perform s log = ((.ok ids, s'), log')

/-- There is one listing. -/
theorem Listing.eq {store : ReportStore σ} {s : σ} {log : Log} {ids ids' : List Int64}
    (h : store.Listing s log ids) (h' : store.Listing s log ids') : ids' = ids := by
  obtain ⟨s₁, log₁, h⟩ := h
  obtain ⟨s₂, log₂, h'⟩ := h'
  rw [h] at h'
  simp only [Prod.mk.injEq, Except.ok.injEq] at h'
  exact h'.1.1.symm

/-! ### Where a store can come to -/

/-- The states that listing, reading and erasing lead to, whether or not they fail. -/
inductive Used (store : ReportStore σ) (s : σ) : σ → Prop where
  | refl : Used store s s
  | ids {s₁ s₂ : σ} {log log' : Log} {r : Except StoreFault (List Int64)} :
      Used store s s₁ → store.ids.perform s₁ log = ((r, s₂), log') → Used store s s₂
  | read {s₁ s₂ : σ} {log log' : Log} {id : Int64} {r : Except StoreFault (Option Bytes)} :
      Used store s s₁ → (store.read id).perform s₁ log = ((r, s₂), log') → Used store s s₂
  | delete {s₁ s₂ : σ} {log log' : Log} {id : Int64} {r : Except StoreFault Unit} :
      Used store s s₁ → (store.delete id).perform s₁ log = ((r, s₂), log') → Used store s s₂

theorem Used.trans {store : ReportStore σ} {s₁ s₂ s₃ : σ} (h : store.Used s₁ s₂)
    (h' : store.Used s₂ s₃) : store.Used s₁ s₃ := by
  induction h' with
  | refl => exact h
  | ids _ hp ih => exact ih.ids hp
  | read _ hp ih => exact ih.read hp
  | delete _ hp ih => exact ih.delete hp

/-- What every call of a store keeps up holds wherever the store comes to. -/
theorem Used.preserves {store : ReportStore σ} {fine : σ → Prop}
    (hids : ∀ {s s' log log' r}, store.ids.perform s log = ((r, s'), log') → fine s → fine s')
    (hread : ∀ {id s s' log log' r},
      (store.read id).perform s log = ((r, s'), log') → fine s → fine s')
    (hdelete : ∀ {id s s' log log' r},
      (store.delete id).perform s log = ((r, s'), log') → fine s → fine s')
    {s s' : σ} (h : store.Used s s') (hs : fine s) : fine s' := by
  induction h with
  | refl => exact hs
  | ids _ hp ih => exact hids hp ih
  | read _ hp ih => exact hread hp ih
  | delete _ hp ih => exact hdelete hp ih

/-- In a state that the store can come to, a call fails. -/
def FailsAfter {α : Type} (store : ReportStore σ) (s : σ) (call : Action σ StoreFault α)
    (fault : StoreFault) : Prop :=
  ∃ s₁ s₂ log log', store.Used s s₁ ∧ call.perform s₁ log = ((.error fault, s₂), log')

theorem FailsAfter.of_used {α : Type} {store : ReportStore σ} {s s₁ : σ}
    {call : Action σ StoreFault α} {fault : StoreFault} (hu : store.Used s s₁)
    (h : store.FailsAfter s₁ call fault) : store.FailsAfter s call fault := by
  obtain ⟨s₂, s₃, log, log', hu', hp⟩ := h
  exact ⟨s₂, s₃, log, log', hu.trans hu', hp⟩

/-- From a state on no listing, no reading and no erasing fails. -/
structure NeverFails (store : ReportStore σ) (s : σ) : Prop where
  ids : ∀ fault, ¬ store.FailsAfter s store.ids fault
  read : ∀ id fault, ¬ store.FailsAfter s (store.read id) fault
  delete : ∀ id fault, ¬ store.FailsAfter s (store.delete id) fault

theorem NeverFails.of_used {store : ReportStore σ} {s s' : σ} (h : store.NeverFails s)
    (hused : store.Used s s') : store.NeverFails s' where
  ids fault hfails := h.ids fault (hfails.of_used hused)
  read id fault hfails := h.read id fault (hfails.of_used hused)
  delete id fault hfails := h.delete id fault (hfails.of_used hused)

end ReportStore

/-! ## The store in memory -/

namespace MemoryStore

/-- The records of a store in memory. -/
def view (s : MemoryStore) : Records := fun id => s.records.lookup id

theorem lookup_insert (id : Int64) (record : Bytes) (records : List (Int64 × Bytes)) (i : Int64) :
    (insert id record records).lookup i = if i = id then some record else records.lookup i := by
  induction records with
  | nil => exact lookup_cons_eq_ite (id, record) [] i
  | cons e rest ih =>
      unfold insert
      split
      · exact lookup_cons_eq_ite (id, record) (e :: rest) i
      · split
        · next heq =>
            rw [lookup_cons_eq_ite, lookup_cons_eq_ite, heq]
            split <;> rfl
        · next hne =>
            rw [lookup_cons_eq_ite, lookup_cons_eq_ite, ih]
            -- the record goes behind one of another number
            by_cases hi : i = e.1
            · rw [if_pos hi, if_pos hi, if_neg (hi ▸ Ne.symm hne)]
            · rw [if_neg hi, if_neg hi]

/-- The records show what is put among them, and else what they were. -/
theorem view_put (s : MemoryStore) (id : Int64) (record : Bytes) :
    view (s.put id record) = Function.update (view s) id (some record) := by
  funext i
  rw [Function.update_apply]
  exact lookup_insert id record s.records i

theorem perform_check (call : StoreCall) (id : Option Int64) (s : MemoryStore) (log : Log) :
    (check call id).perform s log =
      (((s.faults.find? (PlannedFault.meets call id)).elim (.ok ())
        fun f => .error (.told f.message), s), log) := by
  rw [check, Action.perform_bind_ok (Action.perform_get s log)]
  cases s.faults.find? (PlannedFault.meets call id) <;> rfl

/-- Where only erasing is to fail, any other call is let through. -/
theorem perform_check_of_faults {s : MemoryStore} (h : ∀ f ∈ s.faults, f.call = .delete)
    {call : StoreCall} (hcall : call ≠ .delete) (id : Option Int64) (log : Log) :
    (check call id).perform s log = ((.ok (), s), log) := by
  have hnone : s.faults.find? (PlannedFault.meets call id) = none := by
    refine List.find?_eq_none.mpr fun f hf => ?_
    simp [PlannedFault.meets, h f hf, Ne.symm hcall]
  rw [perform_check, hnone]
  rfl

theorem perform_ids_of_faults {s : MemoryStore} (h : ∀ f ∈ s.faults, f.call = .delete) (log : Log) :
    ReportStore.memory.ids.perform s log = ((.ok s.listed, s), log) := by
  unfold ReportStore.memory
  rw [Action.perform_bind_ok (perform_check_of_faults h (by decide) none log),
    Action.perform_bind_ok (Action.perform_get s log)]
  rfl

theorem perform_read_of_faults {s : MemoryStore} (h : ∀ f ∈ s.faults, f.call = .delete)
    (id : Int64) (log : Log) :
    (ReportStore.memory.read id).perform s log = ((.ok (view s id), s), log) := by
  unfold ReportStore.memory
  rw [Action.perform_bind_ok (perform_check_of_faults h (by decide) (some id) log),
    Action.perform_bind_ok (Action.perform_get s log)]
  rfl

/-- A call that begins with a check goes on as it would without one, or it fails where it is. -/
theorem perform_check_cases {α : Type} {call : StoreCall} {id : Option Int64} {a : Work α}
    {s s' : MemoryStore} {log log' : Log} {r : Except StoreFault α}
    (h : (check call id >>= fun _ => a).perform s log = ((r, s'), log')) :
    a.perform s log = ((r, s'), log') ∨ s' = s ∧ s.faults ≠ [] ∧ ∃ fault, r = .error fault := by
  rw [Action.perform_bind, perform_check] at h
  cases hf : s.faults.find? (PlannedFault.meets call id) with
  | none =>
      rw [hf] at h
      exact .inl h
  | some f =>
      rw [hf] at h
      injection h with h _
      injection h with hr hs
      refine .inr ⟨hs.symm, ?_, _, hr.symm⟩
      intro hnil
      rw [hnil] at hf
      cases hf

/-- What a call leaves behind: the faults that were planned, and if there are none a result. -/
theorem perform_ids_faults {s s' : MemoryStore} {log log' : Log} {r : Except StoreFault (List Int64)}
    (h : ReportStore.memory.ids.perform s log = ((r, s'), log')) :
    s'.faults = s.faults ∧ (s.faults = [] → ∃ ids, r = .ok ids) := by
  rcases perform_check_cases h with h | ⟨rfl, hne, _⟩
  · rw [Action.perform_bind_ok (Action.perform_get s log)] at h
    injection h with h _
    injection h with hr hs
    exact ⟨by rw [← hs], fun _ => ⟨_, hr.symm⟩⟩
  · exact ⟨rfl, fun hnil => absurd hnil hne⟩

theorem perform_read_faults {s s' : MemoryStore} {log log' : Log} {id : Int64}
    {r : Except StoreFault (Option Bytes)}
    (h : (ReportStore.memory.read id).perform s log = ((r, s'), log')) :
    s'.faults = s.faults ∧ (s.faults = [] → ∃ found, r = .ok found) := by
  rcases perform_check_cases h with h | ⟨rfl, hne, _⟩
  · rw [Action.perform_bind_ok (Action.perform_get s log)] at h
    injection h with h _
    injection h with hr hs
    exact ⟨by rw [← hs], fun _ => ⟨_, hr.symm⟩⟩
  · exact ⟨rfl, fun hnil => absurd hnil hne⟩

theorem perform_delete_faults {s s' : MemoryStore} {log log' : Log} {id : Int64}
    {r : Except StoreFault Unit}
    (h : (ReportStore.memory.delete id).perform s log = ((r, s'), log')) :
    s'.faults = s.faults ∧ (s.faults = [] → ∃ u, r = .ok u) := by
  rcases perform_check_cases h with h | ⟨rfl, hne, _⟩
  · injection h with h _
    injection h with hr hs
    exact ⟨by rw [← hs], fun _ => ⟨(), hr.symm⟩⟩
  · exact ⟨rfl, fun hnil => absurd hnil hne⟩

/-- A store in memory for which no faults are planned never fails. -/
theorem neverFails {s : MemoryStore} (h : s.faults = []) : ReportStore.memory.NeverFails s := by
  -- no call plans faults, so there are none wherever the store comes to
  have hfine : ∀ {s₁}, ReportStore.memory.Used s s₁ → s₁.faults = [] := fun hu =>
    hu.preserves (fun hp hs => (perform_ids_faults hp).1.trans hs)
      (fun hp hs => (perform_read_faults hp).1.trans hs)
      (fun hp hs => (perform_delete_faults hp).1.trans hs) h
  refine ⟨?_, ?_, ?_⟩
  · intro fault hr
    obtain ⟨s₁, s₂, log, log', hu, hp⟩ := hr
    obtain ⟨_, hr⟩ := (perform_ids_faults hp).2 (hfine hu)
    cases hr
  · intro id fault hr
    obtain ⟨s₁, s₂, log, log', hu, hp⟩ := hr
    obtain ⟨_, hr⟩ := (perform_read_faults hp).2 (hfine hu)
    cases hr
  · intro id fault hr
    obtain ⟨s₁, s₂, log, log', hu, hp⟩ := hr
    obtain ⟨_, hr⟩ := (perform_delete_faults hp).2 (hfine hu)
    cases hr

/-- The store in memory keeps its records, whatever faults are planned and whatever order is set. -/
theorem keeps : ReportStore.memory.Keeps view where
  ids := by
    intro s s' log log' r h
    rcases perform_check_cases h with h | ⟨hs, _⟩
    · rw [Action.perform_bind_ok (Action.perform_get s log)] at h
      injection h with h _
      injection h with _ hs
      rw [← hs]
    · rw [hs]
  read := by
    intro id s s' log log' r h
    rcases perform_check_cases h with h | ⟨hs, _, fault, hr⟩
    · rw [Action.perform_bind_ok (Action.perform_get s log)] at h
      injection h with h _
      injection h with hr hs
      subst hs; subst hr
      exact ⟨rfl, fun found hfound => by injection hfound with hfound; exact hfound.symm⟩
    · subst hs; subst hr
      exact ⟨rfl, fun found hfound => by cases hfound⟩
  delete := by
    intro id s s' log log' h
    rcases perform_check_cases h with h | ⟨_, _, fault, hr⟩
    · injection h with h _
      injection h with _ hs
      subst hs
      funext i
      show List.lookup i (s.records.filter (·.1 ≠ id)) = _
      rw [lookup_filter_ne, Records.without_apply]
      simp [view]
    · cases hr
  delete_error := by
    intro id s s' log log' fault h
    rcases perform_check_cases h with h | ⟨hs, _⟩
    · injection h with h _
      injection h with hr _
      cases hr
    · rw [hs]

end MemoryStore

end CrashCourier
