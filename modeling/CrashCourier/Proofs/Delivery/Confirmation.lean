import CrashCourier.Proofs.Delivery.Pass
import CrashCourier.Proofs.Report.Roundtrip

/-!
# What a confirmation erases

A handler may confirm a part of its batch only, and then the records of this part are the ones to be
erased. A pass does not know them by their numbers. It takes the identifiers of the confirmed reports
and erases every record of the batch whose report has one of them.

So the records of the confirmed part always go, and a record that was left out goes with them if its
report has the identifier of a confirmed one. Nothing in a store or in reading a report keeps two
records from having one identifier. `Separate` says that no record left out shares one, and a pass
erases just the confirmed part if and only if that is so.

A part is a sub-list of the pending records with their numbers, so that it is a choice of positions
in the batch even where two of the reports are equal.
-/

namespace CrashCourier.Courier

variable {σ τ : Type}

/-- The numbers of pending records. -/
def numbers (pending : List Pending) : List Int64 :=
  pending.map (·.1)

/-- The identifiers of their reports. -/
def identifiers (pending : List Pending) : List String :=
  pending.map (·.2.id)

/-- No record that was left out has a report of the identifier of a confirmed one. -/
def Separate (confirmed pending : List Pending) : Prop :=
  ∀ p ∈ pending, p.1 ∉ numbers confirmed → p.2.id ∉ identifiers confirmed

/-- Diagnosing changes no identifier. -/
theorem identifiers_batchOf (doctor : Doctor) (pending : List Pending) :
    (batchOf doctor pending).map (·.id) = identifiers pending := by
  simp [batchOf, diagnosedOf, identifiers, Function.comp_def]

/-! ## What has a confirmed identifier -/

section Confirmed

variable {m : Records} {ids : List Int64} {confirmed : List Pending}

/-- The records of the confirmed part have confirmed identifiers. -/
theorem mem_confirmedIds_of_mem_numbers (hsub : confirmed.Sublist (pendingOf m ids)) {id : Int64}
    (h : id ∈ numbers confirmed) :
    id ∈ confirmedIds (identifiers confirmed) (pendingOf m ids) := by
  obtain ⟨⟨i, report⟩, hmem, rfl⟩ := List.mem_map.mp h
  exact mem_confirmedIds.mpr ⟨report, hsub.subset hmem, List.mem_map_of_mem hmem⟩

/-- The others do not, unless they share one. -/
theorem mem_numbers_of_mem_confirmedIds (hsep : Separate confirmed (pendingOf m ids)) {id : Int64}
    (h : id ∈ confirmedIds (identifiers confirmed) (pendingOf m ids)) :
    id ∈ numbers confirmed := by
  obtain ⟨report, hmem, hid⟩ := mem_confirmedIds.mp h
  by_contra hnot
  exact hsep _ hmem hnot hid

/-- A pending record is there to be erased. -/
theorem isSome_of_mem_pendingOf {p : Pending} (h : p ∈ pendingOf m ids) : (m p.1).isSome := by
  obtain ⟨_, record, hrec, _⟩ := mem_pendingOf.mp h
  rw [hrec]
  rfl

/-- Erasing by identifier erases the confirmed part alone if nothing else shares one, and only
then. -/
theorem without_confirmedIds_iff (hsub : confirmed.Sublist (pendingOf m ids)) :
    m.without (confirmedIds (identifiers confirmed) (pendingOf m ids)) =
        m.without (numbers confirmed) ↔
      Separate confirmed (pendingOf m ids) := by
  refine ⟨?_, ?_⟩
  · intro heq p hp hnot hid
    have hconf : p.1 ∈ confirmedIds (identifiers confirmed) (pendingOf m ids) :=
      mem_confirmedIds.mpr ⟨p.2, hp, hid⟩
    have hgone := congrFun heq p.1
    rw [Records.without_of_mem hconf, Records.without_of_not_mem hnot] at hgone
    have hthere := isSome_of_mem_pendingOf hp
    rw [← hgone] at hthere
    cases hthere
  · intro hsep
    funext id
    by_cases hid : id ∈ numbers confirmed
    · rw [Records.without_of_mem hid,
        Records.without_of_mem (mem_confirmedIds_of_mem_numbers hsub hid)]
    · have hconf : id ∉ confirmedIds (identifiers confirmed) (pendingOf m ids) :=
        fun h => hid (mem_numbers_of_mem_confirmedIds hsep h)
      rw [Records.without_of_not_mem hid, Records.without_of_not_mem hconf]

end Confirmed

/-! ## A pass without failures -/

/-- A pass in which nothing fails succeeds with the confirmed part of the batch, and erases by its
identifiers. -/
theorem sendAll_confirmed {c : Courier σ τ} {view : σ → Records} (hk : c.store.Keeps view)
    {s : σ} (hn : c.store.NeverFails s) {t : τ} {log : Log} {ids : List Int64}
    {confirmed : List Pending} (hids : c.store.Listing s log ids)
    (hsub : confirmed.Sublist (pendingOf (view s) ids))
    (hh : ∀ log, ∃ t' log', (c.handler (batchOf c.doctor (pendingOf (view s) ids))).perform t log =
      ((.ok (batchOf c.doctor confirmed), t'), log')) :
    ∃ s' t' log', c.sendAll.perform (s, t) log =
        ((.ok (batchOf c.doctor confirmed), (s', t')), log') ∧
      view s' =
        (view s).without (confirmedIds (identifiers confirmed) (pendingOf (view s) ids)) := by
  rcases hp : c.sendAll.perform (s, t) log with ⟨⟨r, s', t'⟩, log'⟩
  -- of the five courses only two are open to a store and a handler that do not fail
  have hcourse := sendAll_course hk hp
  suffices hres : r = .ok (batchOf c.doctor confirmed) ∧ view s' =
      (view s).without (confirmedIds (identifiers confirmed) (pendingOf (view s) ids)) from
    ⟨s', t', log', by rw [hres.1], hres.2⟩
  cases hcourse with
  | unlisted hfails => exact absurd hfails (hn.ids _)
  | unread _ _ hfails => exact absurd hfails (hn.read _ _)
  | idle hids' hnil hview =>
      obtain rfl := hids.eq hids'
      rw [hnil] at hsub ⊢
      obtain rfl := List.sublist_nil.mp hsub
      refine ⟨rfl, ?_⟩
      rw [hview]
      exact (Records.without_nil _).symm
  | @refused _ _ _ _ log₁ _ hids' _ hh' =>
      obtain rfl := hids.eq hids'
      obtain ⟨t₁, log₂, hok⟩ := hh log₁
      rw [hok] at hh'
      cases hh'
  | @delivered _ _ _ _ log₁ _ hids' _ hh' hview =>
      obtain rfl := hids.eq hids'
      obtain ⟨t₁, log₂, hok⟩ := hh log₁
      rw [hok] at hh'
      cases hh'
      rw [identifiers_batchOf] at hview
      exact ⟨rfl, hview⟩
  | stuck _ _ _ _ hfails => exact absurd hfails (hn.delete _ _)

/-! ## Two records and a handler that confirms the first -/

open CrashReport in
/-- A store of two records, the reports of which have these identifiers. -/
def twoRecords (a b : String) : MemoryStore :=
  (MemoryStore.empty.put 1 (encode (bare a))).put 2 (encode (bare b))

/-- What delivers the records of a store in memory to a scripted handler. -/
def scriptedCourier : Courier MemoryStore Script :=
  ⟨.memory, .scripted, fun _ => none⟩

theorem listing_twoRecords (a b : String) :
    scriptedCourier.store.Listing (twoRecords a b) [] [1, 2] :=
  ⟨_, _, rfl⟩

theorem pendingOf_twoRecords (a b : String) :
    pendingOf (MemoryStore.view (twoRecords a b)) [1, 2] =
      [(1, CrashReport.bare a), (2, CrashReport.bare b)] := by
  have hfirst : MemoryStore.view (twoRecords a b) 1 = some (CrashReport.encode (.bare a)) := rfl
  have hsecond : MemoryStore.view (twoRecords a b) 2 = some (CrashReport.encode (.bare b)) := rfl
  rw [pendingOf_cons_report hfirst (CrashReport.decode_encode_bare a),
    pendingOf_cons_report hsecond (CrashReport.decode_encode_bare b)]
  rfl

theorem sublist_twoRecords (a b : String) :
    [((1 : Int64), CrashReport.bare a)].Sublist
      (pendingOf (MemoryStore.view (twoRecords a b)) [1, 2]) := by
  rw [pendingOf_twoRecords]
  exact (List.nil_sublist _).cons_cons _

theorem confirms_first (a b : String) (log : Log) :
    ∃ t' log', (scriptedCourier.handler (batchOf scriptedCourier.doctor
        (pendingOf (MemoryStore.view (twoRecords a b)) [1, 2]))).perform ⟨[.first 1], []⟩ log =
      ((.ok (batchOf scriptedCourier.doctor [(1, CrashReport.bare a)]), t'), log') := by
  rw [pendingOf_twoRecords]
  exact ⟨_, _, rfl⟩

/-! ## At the top -/

/--
**A pass erases just the confirmed records if and only if no other record shares an identifier with
one of them.** In either case it succeeds, with the confirmed part as its result.
-/
theorem erases_confirmed_iff_separate {c : Courier σ τ} {view : σ → Records}
    (hk : c.store.Keeps view) {s : σ} (hn : c.store.NeverFails s) {t : τ} {log : Log}
    {ids : List Int64} {confirmed : List Pending} (hids : c.store.Listing s log ids)
    (hsub : confirmed.Sublist (pendingOf (view s) ids))
    (hh : ∀ log, ∃ t' log', (c.handler (batchOf c.doctor (pendingOf (view s) ids))).perform t log =
      ((.ok (batchOf c.doctor confirmed), t'), log')) :
    ∃ s' t' log', c.sendAll.perform (s, t) log =
        ((.ok (batchOf c.doctor confirmed), (s', t')), log') ∧
      (view s' = (view s).without (numbers confirmed) ↔
        Separate confirmed (pendingOf (view s) ids)) := by
  obtain ⟨s', t', log', hp, hview⟩ := sendAll_confirmed hk hn hids hsub hh
  refine ⟨s', t', log', hp, ?_⟩
  rw [hview]
  exact without_confirmedIds_iff hsub

/-- The first of two records is confirmed, and it alone is erased: the second has an identifier of its
own. -/
theorem first_of_two_erased :
    ∃ s' t' log', scriptedCourier.sendAll.perform (twoRecords "a" "b", ⟨[.first 1], []⟩) [] =
        ((.ok (batchOf scriptedCourier.doctor [(1, CrashReport.bare "a")]), (s', t')), log') ∧
      MemoryStore.view s' = (MemoryStore.view (twoRecords "a" "b")).without [1] := by
  obtain ⟨s', t', log', hp, hiff⟩ := erases_confirmed_iff_separate (c := scriptedCourier)
    MemoryStore.keeps (MemoryStore.neverFails rfl) (listing_twoRecords "a" "b")
    (sublist_twoRecords "a" "b") (confirms_first "a" "b")
  refine ⟨s', t', log', hp, hiff.mpr ?_⟩
  rw [pendingOf_twoRecords]
  unfold Separate numbers identifiers
  decide

/-- The first of two records is confirmed, and the second is erased with it: the two have one
identifier. -/
theorem left_out_record_erased :
    [((1 : Int64), CrashReport.bare "a")].Sublist
        (pendingOf (MemoryStore.view (twoRecords "a" "a")) [1, 2]) ∧
      MemoryStore.view (twoRecords "a" "a") 2 = some (CrashReport.encode (.bare "a")) ∧
      ∃ s' t' log', scriptedCourier.sendAll.perform (twoRecords "a" "a", ⟨[.first 1], []⟩) [] =
          ((.ok (batchOf scriptedCourier.doctor [(1, CrashReport.bare "a")]), (s', t')), log') ∧
        MemoryStore.view s' 2 = none := by
  have hsub := sublist_twoRecords "a" "a"
  obtain ⟨s', t', log', hp, hview⟩ := sendAll_confirmed (c := scriptedCourier) MemoryStore.keeps
    (MemoryStore.neverFails rfl) (listing_twoRecords "a" "a") hsub (confirms_first "a" "a")
  refine ⟨hsub, rfl, s', t', log', hp, ?_⟩
  rw [hview, pendingOf_twoRecords]
  exact Records.without_of_mem (by decide)

end CrashCourier.Courier
