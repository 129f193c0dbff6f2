import CrashCourier.Delivery.Pass
import CrashCourier.Proofs.Delivery.Records

/-!
# How a pass can go

A pass reads the records, gives the batch to the handler and erases what the handler confirms. `Run`
says which of these parts a pass has carried out. On a store that keeps its records it can end in six
ways, and `Course` has one constructor for each. What a pass may do to a store is said there once;
everything else about passes is read off `sendAll_run` and `sendAll_course`.

* Listing or reading fails: the store is as it was and the handler has not been asked.
* No record is a report: the same, and the pass succeeds.
* The handler refuses the batch: the store is as it was.
* The handler confirms: records are erased in order of the batch, all of the confirmed ones or,
  if erasing fails, those before the one that could not be erased.

Carried out forward, a pass over records that can be read comes down to the delivery of the reports
among them (`perform_sendAll_of_reads`).
-/

namespace CrashCourier.Courier

variable {σ τ : Type}

/-! ## The batch -/

/-- What there is to deliver among these numbers. -/
def pendingOf (m : Records) (ids : List Int64) : List Pending :=
  ids.filterMap fun id =>
    (m id).bind fun record => (CrashReport.decode record).toOption.map fun report => (id, report)

/-- The same with the diagnoses of a doctor. -/
def diagnosedOf (doctor : Doctor) (pending : List Pending) : List Pending :=
  pending.map fun (id, report) => (id, report.diagnosed doctor)

/-- The numbers of the records whose reports are of these identifiers. -/
def confirmedIds (arrived : List String) (pending : List Pending) : List Int64 :=
  (pending.filter fun p => arrived.contains p.2.id).map (·.1)

theorem toOption_eq_some {ε α : Type} {r : Except ε α} {a : α} :
    r.toOption = some a ↔ r = .ok a := by
  cases r <;> simp [Except.toOption]

theorem mem_pendingOf {m : Records} {ids : List Int64} {id : Int64} {report : CrashReport} :
    (id, report) ∈ pendingOf m ids ↔
      id ∈ ids ∧ ∃ record, m id = some record ∧ CrashReport.decode record = .ok report := by
  simp only [pendingOf, List.mem_filterMap, Option.bind_eq_some_iff, Option.map_eq_some_iff,
    toOption_eq_some, Prod.mk.injEq]
  refine ⟨?_, ?_⟩
  · intro hr
    obtain ⟨i, hi, record, hm, _, hdec, rfl, rfl⟩ := hr
    exact ⟨hi, record, hm, hdec⟩
  · intro hr
    obtain ⟨hi, record, hm, hdec⟩ := hr
    exact ⟨id, hi, record, hm, report, hdec, rfl, rfl⟩

section Cons

variable {m : Records} {id : Int64} {record : Bytes}

theorem pendingOf_cons_none (h : m id = none) (ids : List Int64) :
    pendingOf m (id :: ids) = pendingOf m ids := by
  simp [pendingOf, h]

theorem pendingOf_cons_report {report : CrashReport} (h : m id = some record)
    (hdec : CrashReport.decode record = .ok report) (ids : List Int64) :
    pendingOf m (id :: ids) = (id, report) :: pendingOf m ids := by
  simp [pendingOf, h, hdec, Except.toOption]

theorem pendingOf_cons_broken {fault : Json.Fault} (h : m id = some record)
    (hdec : CrashReport.decode record = .error fault) (ids : List Int64) :
    pendingOf m (id :: ids) = pendingOf m ids := by
  simp [pendingOf, h, hdec, Except.toOption]

end Cons

theorem mem_diagnosedOf {doctor : Doctor} {pending : List Pending} {id : Int64}
    {report : CrashReport} :
    (id, report) ∈ diagnosedOf doctor pending ↔
      ∃ bare, (id, bare) ∈ pending ∧ report = bare.diagnosed doctor := by
  simp only [diagnosedOf, List.mem_map, Prod.mk.injEq, Prod.exists]
  refine ⟨?_, ?_⟩
  · intro hr
    obtain ⟨i, bare, hmem, rfl, rfl⟩ := hr
    exact ⟨bare, hmem, rfl⟩
  · intro hr
    obtain ⟨bare, hmem, rfl⟩ := hr
    exact ⟨id, bare, hmem, rfl, rfl⟩

theorem mem_confirmedIds {arrived : List String} {pending : List Pending} {id : Int64} :
    id ∈ confirmedIds arrived pending ↔ ∃ report, (id, report) ∈ pending ∧ report.id ∈ arrived := by
  simp [confirmedIds]

theorem confirmedIds_cons_of_mem {arrived : List String} {p : Pending} {pending : List Pending}
    (h : p.2.id ∈ arrived) :
    confirmedIds arrived (p :: pending) = p.1 :: confirmedIds arrived pending := by
  simp only [confirmedIds, List.contains_eq_mem]
  rw [List.filter_cons_of_pos (by simpa using h), List.map_cons]

theorem confirmedIds_cons_of_not_mem {arrived : List String} {p : Pending}
    {pending : List Pending} (h : p.2.id ∉ arrived) :
    confirmedIds arrived (p :: pending) = confirmedIds arrived pending := by
  simp only [confirmedIds, List.contains_eq_mem]
  rw [List.filter_cons_of_neg (by simpa using h)]

@[simp] theorem id_diagnosed (report : CrashReport) (doctor : Doctor) :
    (report.diagnosed doctor).id = report.id := rfl

@[simp] theorem confirmedIds_diagnosedOf (arrived : List String) (doctor : Doctor)
    (pending : List Pending) :
    confirmedIds arrived (diagnosedOf doctor pending) = confirmedIds arrived pending := by
  induction pending with
  | nil => rfl
  | cons p pending ih =>
      have hcons : diagnosedOf doctor (p :: pending) =
          (p.1, p.2.diagnosed doctor) :: diagnosedOf doctor pending := rfl
      rw [hcons]
      by_cases hmem : p.2.id ∈ arrived
      · rw [confirmedIds_cons_of_mem (p := p) hmem, confirmedIds_cons_of_mem (by exact hmem), ih]
      · rw [confirmedIds_cons_of_not_mem (p := p) hmem,
          confirmedIds_cons_of_not_mem (by exact hmem), ih]

/-- What the handler is given: the reports, diagnosed, in the order of the listing. -/
def batchOf (doctor : Doctor) (pending : List Pending) : List CrashReport :=
  (diagnosedOf doctor pending).map (·.2)

theorem mem_batchOf {doctor : Doctor} {pending : List Pending} {report : CrashReport} :
    report ∈ batchOf doctor pending ↔
      ∃ id bare, (id, bare) ∈ pending ∧ report = bare.diagnosed doctor := by
  simp only [batchOf, List.mem_map, Prod.exists, mem_diagnosedOf, exists_eq_right]

/-! ## Reading -/

theorem perform_onStore {α : Type} {work : StoreWork} {a : Action σ StoreFault α} {s s' : σ}
    {t t' : τ} {log log' : Log} {r : Except CourierError α}
    (h : (onStore work a : Work σ τ α).perform (s, t) log = ((r, (s', t')), log')) :
    t' = t ∧ ∃ r', a.perform s log = ((r', s'), log') ∧ r = r'.mapError (.store work) := by
  rcases ha : a.perform s log with ⟨⟨r', s₁⟩, log₁⟩
  simp only [onStore, Action.perform_mapFault, Action.perform_onFirst, ha, Prod.mk.injEq] at h
  obtain ⟨⟨rfl, rfl, rfl⟩, rfl⟩ := h
  exact ⟨rfl, r', rfl, rfl⟩

theorem perform_onStore_of {α : Type} {work : StoreWork} {a : Action σ StoreFault α} {s s' : σ}
    {log log' : Log} {r : Except StoreFault α} (h : a.perform s log = ((r, s'), log')) (t : τ) :
    (onStore work a : Work σ τ α).perform (s, t) log =
      ((r.mapError (.store work), (s', t)), log') := by
  unfold onStore
  rw [Action.perform_mapFault, Action.perform_onFirst, h]

/-- What reading the records of `ids` leaves behind: it gives `found`, or one cannot be read. -/
structure Fetched (c : Courier σ τ) (view : σ → Records) (s : σ) (t : τ) (ids : List Int64)
    {α : Type} (found : α) (r : Except CourierError α) (s' : σ) (t' : τ) : Prop where
  handler : t' = t
  used : c.store.Used s s'
  records : view s' = view s
  result : r = .ok found ∨
    ∃ id fault, id ∈ ids ∧ c.store.FailsAfter s (c.store.read id) fault ∧
      r = .error (.store .read fault)

section Fetched

variable {c : Courier σ τ} {view : σ → Records} {s s' : σ} {t t' : τ} {ids : List Int64} {α : Type}

theorem Fetched.eq_found {found x : α} (h : Fetched c view s t ids found (.ok x) s' t') :
    x = found := by
  rcases h.result with hr | ⟨_, _, _, _, hr⟩
  · exact Except.ok.inj hr
  · cases hr

theorem Fetched.eq_fault {found : α} {e : CourierError}
    (h : Fetched c view s t ids found (.error e) s' t') :
    ∃ id fault, id ∈ ids ∧ c.store.FailsAfter s (c.store.read id) fault ∧
      e = .store .read fault := by
  rcases h.result with hr | ⟨id, fault, hid, hfails, hr⟩
  · cases hr
  · exact ⟨id, fault, hid, hfails, Except.error.inj hr⟩

end Fetched

theorem perform_fetchOne {c : Courier σ τ} {view : σ → Records} (hk : c.store.Keeps view)
    {id : Int64} {s s' : σ} {t t' : τ} {log log' : Log} {r : Except CourierError (Option Pending)}
    (h : (c.fetchOne id).perform (s, t) log = ((r, (s', t')), log')) :
    Fetched c view s t [id] (pendingOf (view s) [id]).head? r s' t' := by
  rcases Action.perform_bind_cases h with ⟨found, ⟨s₁, t₁⟩, log₁, h₁, h₂⟩ | ⟨e, h₁, rfl⟩
  · obtain ⟨rfl, r', ha, hr'⟩ := perform_onStore h₁
    obtain rfl : r' = .ok found := by
      cases r' with
      | error fault => cases hr'
      | ok found' => exact congrArg _ (Except.ok.inj hr').symm
    obtain ⟨hview, hfound⟩ := hk.read ha
    obtain rfl : found = view s id := hfound found rfl
    cases hrec : view s id with
    | none =>
        rw [hrec, Action.perform_bind_ok (Action.perform_note _ _ _ _ _)] at h₂
        simp only [Action.perform_pure, Prod.mk.injEq] at h₂
        obtain ⟨⟨rfl, rfl, rfl⟩, rfl⟩ := h₂
        exact ⟨rfl, .read .refl ha, hview, .inl (by rw [pendingOf_cons_none hrec]; rfl)⟩
    | some record =>
        cases hdec : CrashReport.decode record with
        | ok report =>
            simp only [hrec, hdec, Action.perform_pure, Prod.mk.injEq] at h₂
            obtain ⟨⟨rfl, rfl, rfl⟩, rfl⟩ := h₂
            exact ⟨rfl, .read .refl ha, hview, .inl (by rw [pendingOf_cons_report hrec hdec]; rfl)⟩
        | error fault =>
            simp only [hrec, hdec] at h₂
            rw [Action.perform_bind_ok (Action.perform_note _ _ _ _ _)] at h₂
            simp only [Action.perform_pure, Prod.mk.injEq] at h₂
            obtain ⟨⟨rfl, rfl, rfl⟩, rfl⟩ := h₂
            exact ⟨rfl, .read .refl ha, hview, .inl (by rw [pendingOf_cons_broken hrec hdec]; rfl)⟩
  · obtain ⟨rfl, r', ha, hr'⟩ := perform_onStore h₁
    cases r' with
    | ok found => cases hr'
    | error fault =>
        obtain rfl := Except.error.inj hr'
        exact ⟨rfl, .read .refl ha, (hk.read ha).1,
          .inr ⟨id, fault, by simp, ⟨s, s', log, log', .refl, ha⟩, rfl⟩⟩

theorem pendingOf_cons (m : Records) (id : Int64) (ids : List Int64) :
    pendingOf m (id :: ids) = (pendingOf m [id]).head?.toList ++ pendingOf m ids := by
  have hone : pendingOf m [id] = (pendingOf m [id]).head?.toList := by
    simp only [pendingOf, List.filterMap_cons, List.filterMap_nil]
    split <;> simp
  rw [← hone]
  show pendingOf m ([id] ++ ids) = _
  exact List.filterMap_append

theorem perform_fetchEach {c : Courier σ τ} {view : σ → Records} (hk : c.store.Keeps view)
    {ids : List Int64} :
    ∀ {s s' : σ} {t t' : τ} {log log' : Log} {r : Except CourierError (List Pending)},
      (c.fetchEach ids).perform (s, t) log = ((r, (s', t')), log') →
      Fetched c view s t ids (pendingOf (view s) ids) r s' t' := by
  induction ids with
  | nil =>
      intro s s' t t' log log' r h
      simp only [fetchEach, Action.perform_pure, Prod.mk.injEq] at h
      obtain ⟨⟨rfl, rfl, rfl⟩, rfl⟩ := h
      exact ⟨rfl, .refl, rfl, .inl rfl⟩
  | cons id ids ih =>
      intro s s' t t' log log' r h
      rcases Action.perform_bind_cases h with ⟨here, ⟨s₁, t₁⟩, log₁, h₁, h₂⟩ | ⟨e, h₁, rfl⟩
      · -- one record and then the others, from the same records
        have hhere := perform_fetchOne hk h₁
        obtain rfl := hhere.handler
        rcases Action.perform_bind_cases h₂ with ⟨others, ⟨s₂, t₂⟩, log₂, h₃, h₄⟩ | ⟨e, h₃, rfl⟩
        · have hothers := ih h₃
          obtain rfl := hothers.handler
          simp only [Action.perform_pure, Prod.mk.injEq] at h₄
          obtain ⟨⟨rfl, rfl, rfl⟩, rfl⟩ := h₄
          refine ⟨rfl, hhere.used.trans hothers.used, hothers.records.trans hhere.records,
            .inl ?_⟩
          rw [pendingOf_cons, hhere.eq_found, hothers.eq_found, hhere.records]
        · have hothers := ih h₃
          obtain ⟨i, fault, hi, hfails, rfl⟩ := hothers.eq_fault
          exact ⟨hothers.handler, hhere.used.trans hothers.used,
            hothers.records.trans hhere.records,
            .inr ⟨i, fault, List.mem_cons_of_mem _ hi, hfails.of_used hhere.used, rfl⟩⟩
      · have hhere := perform_fetchOne hk h₁
        obtain ⟨i, fault, hi, hfails, rfl⟩ := hhere.eq_fault
        obtain rfl := List.mem_singleton.mp hi
        exact ⟨hhere.handler, hhere.used, hhere.records,
          .inr ⟨i, fault, List.mem_cons_self, hfails, rfl⟩⟩

/-! ## Erasing -/

/-- What erasing the records of `confirmed`, one after the other, leaves behind: all of them are
gone, or those before the first that cannot be erased. -/
structure Erased (c : Courier σ τ) (view : σ → Records) (s : σ) (t : τ) (confirmed : List Int64)
    (r : Except CourierError Unit) (s' : σ) (t' : τ) : Prop where
  handler : t' = t
  used : c.store.Used s s'
  records : r = .ok () ∧ view s' = (view s).without confirmed ∨
    ∃ done id left fault, confirmed = done ++ id :: left ∧
      c.store.FailsAfter s (c.store.delete id) fault ∧
      r = .error (.store .delete fault) ∧ view s' = (view s).without done

/-- Erasing the records of some numbers, one after the other, until one cannot be erased. -/
inductive ErasesEach (store : ReportStore σ) :
    List Int64 → σ → Except StoreFault Unit → σ → Prop where
  | nil {s : σ} : ErasesEach store [] s (.ok ()) s
  | cons {id : Int64} {rest : List Int64} {s s₁ s' : σ} {r : Except StoreFault Unit}
      {log log' : Log} : (store.delete id).perform s log = ((.ok (), s₁), log') →
      ErasesEach store rest s₁ r s' → ErasesEach store (id :: rest) s r s'
  | stop {id : Int64} {rest : List Int64} {s s' : σ} {fault : StoreFault} {log log' : Log} :
      (store.delete id).perform s log = ((.error fault, s'), log') →
      ErasesEach store (id :: rest) s (.error fault) s'

/-- What a pass does to the store once reports are confirmed is to erase their records. -/
theorem reconcile_erasesEach {c : Courier σ τ} {arrived : List String} {pending : List Pending} :
    ∀ {s s' : σ} {t t' : τ} {log log' : Log} {r : Except CourierError Unit},
      (c.reconcile arrived pending).perform (s, t) log = ((r, (s', t')), log') →
      t' = t ∧ ∃ r', r = r'.mapError (.store .delete) ∧
        ErasesEach c.store (confirmedIds arrived pending) s r' s' := by
  induction pending with
  | nil =>
      intro s s' t t' log log' r h
      simp only [reconcile, Action.perform_pure, Prod.mk.injEq] at h
      obtain ⟨⟨rfl, rfl, rfl⟩, rfl⟩ := h
      exact ⟨rfl, .ok (), rfl, .nil⟩
  | cons p pending ih =>
      obtain ⟨id, report⟩ := p
      intro s s' t t' log log' r h
      rw [reconcile] at h
      by_cases hmem : report.id ∈ arrived
      · rw [if_pos (by simpa using hmem)] at h
        -- the report is confirmed: its record goes first, then those of the others
        rw [confirmedIds_cons_of_mem hmem]
        rcases Action.perform_bind_cases h with ⟨_, ⟨s₁, t₁⟩, log₁, h₁, h₂⟩ | ⟨e, h₁, rfl⟩
        · obtain ⟨rfl, r', ha, hr'⟩ := perform_onStore h₁
          cases r' with
          | error fault => cases hr'
          | ok u =>
              obtain ⟨rfl, r', hr, hrest⟩ := ih h₂
              exact ⟨rfl, r', hr, .cons ha hrest⟩
        · obtain ⟨rfl, r', ha, hr'⟩ := perform_onStore h₁
          cases r' with
          | ok u => cases hr'
          | error fault => exact ⟨rfl, .error fault, hr', .stop ha⟩
      · rw [if_neg (by simpa using hmem),
          Action.perform_bind_ok (Action.perform_note _ _ _ _ _)] at h
        rw [confirmedIds_cons_of_not_mem hmem]
        exact ih h

/-- Of the records to be erased, all are gone, or those before the first that cannot be erased. -/
theorem ErasesEach.records {store : ReportStore σ} {view : σ → Records} (hk : store.Keeps view)
    {confirmed : List Int64} {s s' : σ} {r : Except StoreFault Unit}
    (h : ErasesEach store confirmed s r s') :
    store.Used s s' ∧ (r = .ok () ∧ view s' = (view s).without confirmed ∨
      ∃ done id left fault, confirmed = done ++ id :: left ∧
        store.FailsAfter s (store.delete id) fault ∧ r = .error fault ∧
        view s' = (view s).without done) := by
  induction h with
  | nil => exact ⟨.refl, .inl ⟨rfl, (Records.without_nil _).symm⟩⟩
  | @stop id rest s s' fault log log' ha =>
      refine ⟨.delete .refl ha, .inr ⟨[], id, rest, fault, rfl, ⟨s, s', log, log', .refl, ha⟩, rfl, ?_⟩⟩
      rw [hk.delete_error ha, Records.without_nil]
  | @cons id rest s s₁ s' r log log' ha _ ih =>
      obtain ⟨hused', hrecords⟩ := ih
      have hused : store.Used s s₁ := .delete .refl ha
      refine ⟨hused.trans hused', ?_⟩
      rcases hrecords with ⟨hr, hview⟩ | ⟨done, i, left, fault, hsplit, hfails, hr, hview⟩
      · refine .inl ⟨hr, ?_⟩
        rw [hview, hk.delete ha, ← Records.without_cons]
      · refine .inr ⟨id :: done, i, left, fault, by rw [hsplit, List.cons_append],
          hfails.of_used hused, hr, ?_⟩
        rw [hview, hk.delete ha, ← Records.without_cons]

theorem perform_reconcile {c : Courier σ τ} {view : σ → Records} (hk : c.store.Keeps view)
    {arrived : List String} {pending : List Pending} {s s' : σ} {t t' : τ} {log log' : Log}
    {r : Except CourierError Unit}
    (h : (c.reconcile arrived pending).perform (s, t) log = ((r, (s', t')), log')) :
    Erased c view s t (confirmedIds arrived pending) r s' t' := by
  obtain ⟨rfl, r', rfl, herases⟩ := reconcile_erasesEach h
  obtain ⟨hused, hrecords⟩ := herases.records hk
  refine ⟨rfl, hused, ?_⟩
  rcases hrecords with ⟨rfl, hview⟩ | ⟨done, id, left, fault, hsplit, hfails, rfl, hview⟩
  · exact .inl ⟨rfl, hview⟩
  · exact .inr ⟨done, id, left, fault, hsplit, hfails, rfl, hview⟩

/-! ## The whole pass -/

/-- The courses that a pass can take from the states of the store and of the handler: its result,
and the states after it. -/
inductive Course (c : Courier σ τ) (view : σ → Records) (s : σ) (t : τ) (log : Log) :
    Except CourierError (List CrashReport) → σ → τ → Prop where
  /-- The store fails to list. -/
  | unlisted {fault : StoreFault} {s' : σ} :
      c.store.FailsAfter s c.store.ids fault → view s' = view s →
      Course c view s t log (.error (.store .list fault)) s' t
  /-- The store fails to read a record that it lists. -/
  | unread {ids : List Int64} {id : Int64} {fault : StoreFault} {s' : σ} :
      c.store.Listing s log ids → id ∈ ids → c.store.FailsAfter s (c.store.read id) fault →
      view s' = view s →
      Course c view s t log (.error (.store .read fault)) s' t
  /-- There is nothing to deliver. -/
  | idle {ids : List Int64} {s' : σ} :
      c.store.Listing s log ids → pendingOf (view s) ids = [] → view s' = view s →
      Course c view s t log (.ok []) s' t
  /-- The handler refuses the batch. -/
  | refused {ids : List Int64} {s' : σ} {t' : τ} {failure : HandlerFailure} {log₁ log₂ : Log} :
      c.store.Listing s log ids → pendingOf (view s) ids ≠ [] →
      (c.handler (batchOf c.doctor (pendingOf (view s) ids))).perform t log₁ =
        ((.error failure, t'), log₂) →
      view s' = view s →
      Course c view s t log (.error (.delivery failure.error)) s' t'
  /-- The handler confirms reports, and their records are erased. -/
  | delivered {ids : List Int64} {s' : σ} {t' : τ} {sent : List CrashReport} {log₁ log₂ : Log} :
      c.store.Listing s log ids → pendingOf (view s) ids ≠ [] →
      (c.handler (batchOf c.doctor (pendingOf (view s) ids))).perform t log₁ =
        ((.ok sent, t'), log₂) →
      view s' = (view s).without (confirmedIds (sent.map (·.id)) (pendingOf (view s) ids)) →
      Course c view s t log (.ok sent) s' t'
  /-- The handler confirms reports, and the store fails to erase one of their records. -/
  | stuck {ids done left : List Int64} {id : Int64} {fault : StoreFault} {s' : σ} {t' : τ}
      {sent : List CrashReport} {log₁ log₂ : Log} :
      c.store.Listing s log ids → pendingOf (view s) ids ≠ [] →
      (c.handler (batchOf c.doctor (pendingOf (view s) ids))).perform t log₁ =
        ((.ok sent, t'), log₂) →
      confirmedIds (sent.map (·.id)) (pendingOf (view s) ids) = done ++ id :: left →
      c.store.FailsAfter s (c.store.delete id) fault → view s' = (view s).without done →
      Course c view s t log (.error (.store .delete fault)) s' t'

theorem perform_hand_ok {c : Courier σ τ} {batch sent : List CrashReport} {s : σ} {t t' : τ}
    {log log' : Log} (h : (c.handler batch).perform t log = ((.ok sent, t'), log')) :
    (c.hand batch).perform (s, t) log = ((.ok sent, (s, t')), log') := by
  change c.handler batch t log = _ at h
  show c.hand batch (s, t) log = _
  simp only [hand, Action.onSecond, h]

theorem perform_hand_error {c : Courier σ τ} {batch : List CrashReport} {failure : HandlerFailure}
    {s : σ} {t t' : τ} {log log' : Log}
    (h : (c.handler batch).perform t log = ((.error failure, t'), log')) :
    ∃ log'', (c.hand batch).perform (s, t) log =
      ((.error (.delivery failure.error), (s, t')), log'') := by
  change c.handler batch t log = _ at h
  refine ⟨log' ++ [⟨.warn, "Crash report delivery failed, keeping reports for the next attempt",
    [("count", toString failure.reports.length), ("error", failure.message)]⟩], ?_⟩
  show c.hand batch (s, t) log = _
  simp only [hand, Action.onSecond, h]
  rfl

/-- What a pass does once the records are read and diagnosed. -/
def deliver (c : Courier σ τ) (pending : List Pending) : Work σ τ (List CrashReport) := do
  if pending.isEmpty then
    Action.note .debug "No pending crash reports, skipping upload" []
    return []
  Action.note .info "Sending crash reports" [("count", toString pending.length)]
  let sent ← c.hand (pending.map (·.2))
  c.reconcile (sent.map (·.id)) pending
  Action.note .info "Crash reports delivered" [("count", toString sent.length)]
  return sent

theorem sendAll_eq (c : Courier σ τ) :
    c.sendAll = onStore .list c.store.ids >>= fun ids =>
      Action.note .debug "Found pending crash reports" [("count", toString ids.length)] >>= fun _ =>
      c.fetchEach ids >>= fun pending => c.deliver (diagnosedOf c.doctor pending) := by
  simp only [sendAll, fetch, bind_assoc]
  rfl

theorem diagnosedOf_isEmpty (doctor : Doctor) (pending : List Pending) :
    (diagnosedOf doctor pending).isEmpty = pending.isEmpty := by
  cases pending <;> rfl

section Reads

variable {c : Courier σ τ} {s : σ} {m : Records}

theorem perform_fetchOne_of_read {id : Int64}
    (hread : ∀ log, ∃ log', (c.store.read id).perform s log = ((.ok (m id), s), log')) (t : τ)
    (log : Log) : ∃ log', (c.fetchOne id).perform (s, t) log =
      ((.ok (pendingOf m [id]).head?, (s, t)), log') := by
  obtain ⟨log₁, h⟩ := hread log
  unfold fetchOne
  rw [Action.perform_bind_ok (perform_onStore_of h t)]
  cases hrec : m id with
  | none =>
      rw [pendingOf_cons_none hrec]
      exact ⟨_, rfl⟩
  | some record =>
      cases hdec : CrashReport.decode record with
      | ok report =>
          simp only [hdec, pendingOf_cons_report hrec hdec]
          exact ⟨_, rfl⟩
      | error fault =>
          simp only [hdec, pendingOf_cons_broken hrec hdec]
          exact ⟨_, rfl⟩

/-- Where every record can be read, what is fetched are the reports among them. -/
theorem perform_fetchEach_of_reads {ids : List Int64}
    (hread : ∀ id ∈ ids, ∀ log, ∃ log', (c.store.read id).perform s log = ((.ok (m id), s), log'))
    (t : τ) (log : Log) :
    ∃ log', (c.fetchEach ids).perform (s, t) log = ((.ok (pendingOf m ids), (s, t)), log') := by
  induction ids generalizing log with
  | nil => exact ⟨log, rfl⟩
  | cons id rest ih =>
      obtain ⟨log₁, hhere⟩ := perform_fetchOne_of_read (hread id List.mem_cons_self) t log
      obtain ⟨log₂, hothers⟩ := ih (fun i hi => hread i (List.mem_cons_of_mem _ hi)) log₁
      refine ⟨log₂, ?_⟩
      rw [fetchEach, Action.perform_bind_ok hhere, Action.perform_bind_ok hothers,
        pendingOf_cons m id rest]
      rfl

/-- A pass over records that can be read comes down to delivering the reports among them. -/
theorem perform_sendAll_of_reads {ids : List Int64} {log log₁ : Log}
    (hids : c.store.ids.perform s log = ((.ok ids, s), log₁))
    (hread : ∀ id ∈ ids, ∀ log, ∃ log', (c.store.read id).perform s log = ((.ok (m id), s), log'))
    (t : τ) : ∃ log₂, c.sendAll.perform (s, t) log =
      (c.deliver (diagnosedOf c.doctor (pendingOf m ids))).perform (s, t) log₂ := by
  rw [sendAll_eq, Action.perform_bind_ok (perform_onStore_of hids t),
    Action.perform_bind_ok (Action.perform_note _ _ _ _ _)]
  generalize log₁ ++ _ = log₂
  obtain ⟨log₃, hfetch⟩ := perform_fetchEach_of_reads hread t log₂
  exact ⟨log₃, Action.perform_bind_ok hfetch⟩

end Reads

/-- A store in memory of which only erasing is to fail has records that can be read. -/
theorem perform_sendAll_memory {c : Courier MemoryStore τ} (hc : c.store = .memory)
    {s : MemoryStore} (h : ∀ f ∈ s.faults, f.call = .delete) (t : τ) (log : Log) :
    ∃ log', c.sendAll.perform (s, t) log =
      (c.deliver (diagnosedOf c.doctor (pendingOf (MemoryStore.view s) s.listed))).perform
        (s, t) log' := by
  have hids : c.store.ids.perform s log = ((.ok s.listed, s), log) := by
    rw [hc]
    exact MemoryStore.perform_ids_of_faults h log
  have hread : ∀ id ∈ s.listed, ∀ log, ∃ log',
      (c.store.read id).perform s log = ((.ok (MemoryStore.view s id), s), log') := by
    intro id _ log
    rw [hc]
    exact ⟨log, MemoryStore.perform_read_of_faults h id log⟩
  exact perform_sendAll_of_reads hids hread t

/-- The records have been listed and read, which has left the store in `s'` and the handler in
`t'`. -/
def Gathers (c : Courier σ τ) (s : σ) (t : τ) (log : Log) (ids : List Int64)
    (pending : List Pending) (s' : σ) (t' : τ) : Prop :=
  ∃ s₁ log₁ log₂ log₃, c.store.ids.perform s log = ((.ok ids, s₁), log₁) ∧
    (c.fetchEach ids).perform (s₁, t) log₂ = ((.ok pending, (s', t')), log₃)

/-- The parts of a pass, up to the one that it ends with. -/
inductive Run (c : Courier σ τ) (s : σ) (t : τ) (log : Log) :
    Except CourierError (List CrashReport) → σ → τ → Prop where
  | unlisted {fault : StoreFault} {s' : σ} {log' : Log} :
      c.store.ids.perform s log = ((.error fault, s'), log') →
      Run c s t log (.error (.store .list fault)) s' t
  | unread {ids : List Int64} {e : CourierError} {s₁ s' : σ} {t' : τ} {log₁ log₂ log₃ : Log} :
      c.store.ids.perform s log = ((.ok ids, s₁), log₁) →
      (c.fetchEach ids).perform (s₁, t) log₂ = ((.error e, (s', t')), log₃) →
      Run c s t log (.error e) s' t'
  | idle {ids : List Int64} {s' : σ} {t' : τ} : c.Gathers s t log ids [] s' t' →
      Run c s t log (.ok []) s' t'
  | refused {ids : List Int64} {pending : List Pending} {failure : HandlerFailure} {s' : σ}
      {t₁ t' : τ} {log₁ log₂ : Log} : c.Gathers s t log ids pending s' t₁ → pending ≠ [] →
      (c.handler (batchOf c.doctor pending)).perform t₁ log₁ = ((.error failure, t'), log₂) →
      Run c s t log (.error (.delivery failure.error)) s' t'
  | confirmed {ids : List Int64} {pending : List Pending} {sent : List CrashReport}
      {erasing : Except CourierError Unit} {s₁ s' : σ} {t₁ t₂ t' : τ} {log₁ log₂ log₃ : Log} :
      c.Gathers s t log ids pending s₁ t₁ → pending ≠ [] →
      (c.handler (batchOf c.doctor pending)).perform t₁ log₁ = ((.ok sent, t₂), log₂) →
      (c.reconcile (sent.map (·.id)) (diagnosedOf c.doctor pending)).perform (s₁, t₂) log₂ =
        ((erasing, (s', t')), log₃) →
      Run c s t log (erasing.map fun _ => sent) s' t'

/-- Delivering what has been gathered. -/
theorem deliver_run {c : Courier σ τ} {ids : List Int64} {pending : List Pending} {s s₁ s' : σ}
    {t t₁ t' : τ} {log log₁ log' : Log} {r : Except CourierError (List CrashReport)}
    (hgathers : c.Gathers s t log ids pending s₁ t₁)
    (h : (c.deliver (diagnosedOf c.doctor pending)).perform (s₁, t₁) log₁ =
      ((r, (s', t')), log')) : c.Run s t log r s' t' := by
  rw [deliver, diagnosedOf_isEmpty] at h
  by_cases hnil : pending = []
  · subst hnil
    rw [if_pos List.isEmpty_nil, Action.perform_bind_ok (Action.perform_note _ _ _ _ _)] at h
    simp only [Action.perform_pure, Prod.mk.injEq] at h
    obtain ⟨⟨rfl, rfl, rfl⟩, rfl⟩ := h
    -- nothing is pending and the handler is not asked
    exact .idle hgathers
  · rw [if_neg (by simpa using hnil),
      Action.perform_bind_ok (Action.perform_note _ _ _ _ _)] at h
    generalize log₁ ++ _ = log₂ at h
    rcases hh : (c.handler (batchOf c.doctor pending)).perform t₁ log₂
      with ⟨⟨failure | sent, t₂⟩, log₃⟩
    · -- the handler fails, and the store has only been read
      obtain ⟨log₄, hhand⟩ := perform_hand_error (s := s₁) hh
      rw [batchOf] at hhand
      rw [Action.perform_bind_error hhand] at h
      simp only [Prod.mk.injEq] at h
      obtain ⟨⟨rfl, rfl, rfl⟩, rfl⟩ := h
      exact .refused hgathers hnil hh
    · have hhand := perform_hand_ok (s := s₁) hh
      rw [batchOf] at hhand
      rw [Action.perform_bind_ok hhand] at h
      -- the handler confirms: what is left is to erase
      rcases Action.perform_bind_cases h with ⟨_, ⟨s₃, t₃⟩, log₄, h₃, h₄⟩ | ⟨e, h₃, rfl⟩
      · rw [Action.perform_bind_ok (Action.perform_note _ _ _ _ _)] at h₄
        simp only [Action.perform_pure, Prod.mk.injEq] at h₄
        obtain ⟨⟨rfl, rfl, rfl⟩, rfl⟩ := h₄
        exact .confirmed hgathers hnil hh h₃
      · exact .confirmed hgathers hnil hh h₃

/-- A pass is one part after the other. -/
theorem sendAll_run {c : Courier σ τ} {s s' : σ} {t t' : τ} {log log' : Log}
    {r : Except CourierError (List CrashReport)}
    (h : c.sendAll.perform (s, t) log = ((r, (s', t')), log')) : c.Run s t log r s' t' := by
  rw [sendAll_eq] at h
  rcases Action.perform_bind_cases h with ⟨ids, ⟨s₁, t₁⟩, log₁, h₁, h₂⟩ | ⟨e, h₁, rfl⟩
  · obtain ⟨rfl, r', ha, hr'⟩ := perform_onStore h₁
    obtain rfl : r' = .ok ids := by
      cases r' with
      | error fault => cases hr'
      | ok ids' => exact congrArg _ (Except.ok.inj hr').symm
    rw [Action.perform_bind_ok (Action.perform_note _ _ _ _ _)] at h₂
    rcases Action.perform_bind_cases h₂ with ⟨pending, ⟨s₂, t₂⟩, log₂, h₃, h₄⟩ | ⟨e, h₃, rfl⟩
    · exact deliver_run ⟨s₁, log₁, _, _, ha, h₃⟩ h₄
    · exact .unread ha h₃
  · obtain ⟨rfl, r', ha, hr'⟩ := perform_onStore h₁
    cases r' with
    | ok ids => cases hr'
    | error fault =>
        obtain rfl := Except.error.inj hr'
        exact .unlisted ha

/-- What has been gathered is what there was to deliver, and gathering has changed nothing. -/
structure Gathered (c : Courier σ τ) (view : σ → Records) (s : σ) (t : τ) (log : Log)
    (ids : List Int64) (pending : List Pending) (s' : σ) (t' : τ) : Prop where
  listing : c.store.Listing s log ids
  pending : pending = pendingOf (view s) ids
  used : c.store.Used s s'
  records : view s' = view s
  handler : t' = t

theorem Gathers.gathered {c : Courier σ τ} {view : σ → Records} (hk : c.store.Keeps view)
    {ids : List Int64} {pending : List Pending} {s s' : σ} {t t' : τ} {log : Log}
    (h : c.Gathers s t log ids pending s' t') : c.Gathered view s t log ids pending s' t' := by
  obtain ⟨s₁, log₁, log₂, log₃, hids, hfetch⟩ := h
  have hview := hk.ids hids
  have hf := perform_fetchEach hk hfetch
  refine ⟨⟨s₁, log₁, hids⟩, ?_, (ReportStore.Used.ids .refl hids).trans hf.used,
    hf.records.trans hview, hf.handler⟩
  rw [hf.eq_found, hview]

/-- A pass takes one of the courses, and uses the store for nothing else. -/
theorem sendAll_course_used {c : Courier σ τ} {view : σ → Records} (hk : c.store.Keeps view)
    {s s' : σ} {t t' : τ} {log log' : Log} {r : Except CourierError (List CrashReport)}
    (h : c.sendAll.perform (s, t) log = ((r, (s', t')), log')) :
    Course c view s t log r s' t' ∧ c.store.Used s s' := by
  cases sendAll_run h with
  | unlisted hids =>
      exact ⟨.unlisted ⟨s, s', log, _, .refl, hids⟩ (hk.ids hids), .ids .refl hids⟩
  | unread hids hfetch =>
      have hview := hk.ids hids
      have hused : c.store.Used s _ := .ids .refl hids
      have hf := perform_fetchEach hk hfetch
      obtain rfl := hf.handler
      obtain ⟨i, fault, hi, hfails, rfl⟩ := hf.eq_fault
      exact ⟨.unread ⟨_, _, hids⟩ hi (hfails.of_used hused) (hf.records.trans hview),
        hused.trans hf.used⟩
  | idle hgathers =>
      obtain ⟨hids, hnil, hused, hview, rfl⟩ := hgathers.gathered hk
      exact ⟨.idle hids hnil.symm hview, hused⟩
  | refused hgathers hne hanswer =>
      obtain ⟨hids, rfl, hused, hview, rfl⟩ := hgathers.gathered hk
      exact ⟨.refused hids hne hanswer hview, hused⟩
  | confirmed hgathers hne hanswer herase =>
      obtain ⟨hids, rfl, hused, hview, rfl⟩ := hgathers.gathered hk
      have her := perform_reconcile hk herase
      obtain rfl := her.handler
      have hused' := hused.trans her.used
      rcases her.records with ⟨rfl, hview'⟩ | ⟨done, id, left, fault, hsplit, hfails, rfl, hview'⟩
      · rw [confirmedIds_diagnosedOf, hview] at hview'
        exact ⟨.delivered hids hne hanswer hview', hused'⟩
      · rw [confirmedIds_diagnosedOf] at hsplit
        rw [hview] at hview'
        exact ⟨.stuck hids hne hanswer hsplit (hfails.of_used hused) hview', hused'⟩

/-- **Every pass takes one of the courses.** -/
theorem sendAll_course {c : Courier σ τ} {view : σ → Records} (hk : c.store.Keeps view)
    {s s' : σ} {t t' : τ} {log log' : Log} {r : Except CourierError (List CrashReport)}
    (h : c.sendAll.perform (s, t) log = ((r, (s', t')), log')) :
    Course c view s t log r s' t' :=
  (sendAll_course_used hk h).1

end CrashCourier.Courier
