import CrashCourier.Proofs.Delivery.Confirmation

/-!
# No record is lost

A world is a store together with what has happened to it: every record that the monitor ever wrote,
and every call of a handler with its answer. It moves by passes and by writing. A pass is made by any
courier over a store that keeps its records, so the doctor, the answer of the handler and the calls
of the store that fail differ from pass to pass as they like. The monitor writes between passes,
under numbers that it has not used.

The invariant is `Accounted`: a record that was written is still there, or some call confirmed it.

* A pass that erases a record has just called its handler, with the report of that record in the
  batch, and the answer names the identifier of that report (`pass_kept`).
* Calls are never forgotten (`pass_calls`), so what was accounted for stays so.
* Writing uses a new number and touches no other record.
-/

namespace CrashCourier

/-- A call of a handler. -/
structure Call where
  /-- Who diagnosed the reports of the batch. -/
  doctor : Doctor
  batch : List CrashReport
  answer : Except HandlerFailure (List CrashReport)

/-- A handler that also writes its calls down. -/
def Handler.recorded {τ : Type} (doctor : Doctor) (h : Handler τ) : Handler (τ × List Call) :=
  fun batch (t, calls) log =>
    let ((answer, t), log) := h batch t log
    ((answer, (t, calls ++ [⟨doctor, batch, answer⟩])), log)

/-- A courier whose handler writes its calls down. -/
def Courier.recorded {σ τ : Type} (c : Courier σ τ) : Courier σ (τ × List Call) :=
  ⟨c.store, c.handler.recorded c.doctor, c.doctor⟩

/-- The call confirms a record: the record is a report, its diagnosed form was in the batch, and a
report of its identifier is among those that arrived. -/
def Call.Confirms (call : Call) (record : Bytes) : Prop :=
  ∃ report sent, CrashReport.decode record = .ok report ∧
    report.diagnosed call.doctor ∈ call.batch ∧ call.answer = .ok sent ∧
    ∃ r ∈ sent, r.id = report.id

/-- A store and its history. -/
structure World (σ : Type) where
  store : σ
  /-- The records that were ever written. -/
  written : Records
  /-- The calls of handlers, the first one first. -/
  calls : List Call

variable {σ τ : Type}

/-- The world after a pass of a courier, its handler in the state `t`. -/
def World.pass (w : World σ) (c : Courier σ τ) (t : τ) (log : Log) : World σ :=
  let after := (c.recorded.sendAll.perform (w.store, (t, w.calls)) log).1.2
  { w with store := after.1, calls := after.2.2 }

theorem World.store_pass (w : World σ) (c : Courier σ τ) (t : τ) (log : Log) :
    (w.pass c t log).store = (c.recorded.sendAll.perform (w.store, (t, w.calls)) log).1.2.1 := rfl

namespace Retention

/-- One step of a world whose store shows its records through `view`. -/
inductive Step (view : σ → Records) : World σ → World σ → Prop where
  /-- A courier makes a pass. -/
  | pass {τ : Type} (w : World σ) (c : Courier σ τ) (t : τ) (log : Log) :
      c.store.Keeps view → Step view w (w.pass c t log)
  /-- The monitor writes a record under a new number. -/
  | write (w : World σ) (id : Int64) (record : Bytes) (s : σ) :
      w.written id = none → view s = Function.update (view w.store) id (some record) →
      Step view w { w with store := s, written := Function.update w.written id (some record) }

/-- The worlds that a store can come to, from any records that it holds at first. -/
inductive Reachable (view : σ → Records) : World σ → Prop where
  | init (s : σ) : Reachable view ⟨s, view s, []⟩
  | tail {w w' : World σ} : Reachable view w → Step view w w' → Reachable view w'

/-! ## What one pass does -/

theorem perform_recorded {h : Handler τ} {doctor : Doctor} {batch : List CrashReport} {t t' : τ}
    {calls calls' : List Call} {log log' : Log} {answer : Except HandlerFailure (List CrashReport)}
    (hp : (h.recorded doctor batch).perform (t, calls) log = ((answer, (t', calls')), log')) :
    (h batch).perform t log = ((answer, t'), log') ∧
      calls' = calls ++ [⟨doctor, batch, answer⟩] := by
  rcases hh : h batch t log with ⟨⟨a, t₁⟩, log₁⟩
  simp only [Action.perform, Handler.recorded, hh, Prod.mk.injEq] at hp
  obtain ⟨⟨rfl, rfl, rfl⟩, rfl⟩ := hp
  exact ⟨hh, rfl⟩

/-- A pass takes one of the courses of a courier that writes its calls down. -/
theorem pass_course {view : σ → Records} {c : Courier σ τ} (hk : c.store.Keeps view)
    (w : World σ) (t : τ) (log : Log) :
    ∃ r t', c.recorded.Course view w.store (t, w.calls) log r (w.pass c t log).store
      (t', (w.pass c t log).calls) := by
  rcases h : c.recorded.sendAll.perform (w.store, (t, w.calls)) log
    with ⟨⟨r, s', t', calls'⟩, log'⟩
  have hs : (w.pass c t log).store = s' := by simp only [World.pass, h]
  have hc : (w.pass c t log).calls = calls' := by simp only [World.pass, h]
  rw [hs, hc]
  exact ⟨r, t', Courier.sendAll_course (c := c.recorded) hk h⟩

/-- A pass forgets no call. -/
theorem pass_calls {view : σ → Records} {c : Courier σ τ} (hk : c.store.Keeps view)
    (w : World σ) (t : τ) (log : Log) : w.calls <+: (w.pass c t log).calls := by
  obtain ⟨r, t', hcourse⟩ := pass_course hk w t log
  generalize (w.pass c t log).calls = calls' at hcourse ⊢
  generalize (w.pass c t log).store = s' at hcourse
  cases hcourse with
  | unlisted => exact List.prefix_refl _
  | unread => exact List.prefix_refl _
  | idle => exact List.prefix_refl _
  | refused _ _ hh => rw [(perform_recorded hh).2]; exact List.prefix_append _ _
  | delivered _ _ hh => rw [(perform_recorded hh).2]; exact List.prefix_append _ _
  | stuck _ _ hh => rw [(perform_recorded hh).2]; exact List.prefix_append _ _

/-- A call confirms the records whose numbers are confirmed: identifiers tie the two together. -/
theorem confirms_of_mem {doctor : Doctor} {m : Records} {ids : List Int64}
    {sent : List CrashReport} {id : Int64} {record : Bytes} (hrec : m id = some record)
    (h : id ∈ Courier.confirmedIds (sent.map (·.id)) (Courier.pendingOf m ids)) :
    (⟨doctor, Courier.batchOf doctor (Courier.pendingOf m ids), .ok sent⟩ : Call).Confirms
      record := by
  obtain ⟨report, hpend, harr⟩ := Courier.mem_confirmedIds.mp h
  obtain ⟨_, record', hrec', hdec⟩ := Courier.mem_pendingOf.mp hpend
  obtain rfl : record' = record := Option.some.inj (hrec'.symm.trans hrec)
  obtain ⟨r, hr, heq⟩ := List.mem_map.mp harr
  exact ⟨report, sent, hdec, Courier.mem_batchOf.mpr ⟨id, report, hpend, rfl⟩, rfl, r, hr, heq⟩

/-- **A record that a pass erases was confirmed in that pass.** -/
theorem pass_kept {view : σ → Records} {c : Courier σ τ} (hk : c.store.Keeps view)
    (w : World σ) (t : τ) (log : Log) {id : Int64} {record : Bytes}
    (hrec : view w.store id = some record) :
    view (w.pass c t log).store id = some record ∨
      ∃ call, (w.pass c t log).calls = w.calls ++ [call] ∧ call.Confirms record := by
  obtain ⟨r, t', hcourse⟩ := pass_course hk w t log
  generalize (w.pass c t log).calls = calls' at hcourse ⊢
  generalize (w.pass c t log).store = s' at hcourse ⊢
  cases hcourse with
  | unlisted _ hview => exact .inl (by rw [hview, hrec])
  | unread _ _ _ hview => exact .inl (by rw [hview, hrec])
  | idle _ _ hview => exact .inl (by rw [hview, hrec])
  | refused _ _ _ hview => exact .inl (by rw [hview, hrec])
  | @delivered ids _ _ sent _ _ _ _ hh hview =>
      by_cases hid : id ∈ Courier.confirmedIds (sent.map (·.id)) (Courier.pendingOf (view w.store) ids)
      · exact .inr ⟨_, (perform_recorded hh).2, confirms_of_mem hrec hid⟩
      · exact .inl (by rw [hview, Records.without_of_not_mem hid, hrec])
  | @stuck ids done left _ _ _ _ sent _ _ _ _ hh hsplit _ hview =>
      by_cases hid : id ∈ done
      · refine .inr ⟨_, (perform_recorded hh).2, confirms_of_mem hrec ?_⟩
        rw [hsplit]
        exact List.mem_append_left _ hid
      · exact .inl (by rw [hview, Records.without_of_not_mem hid, hrec])

/-! ## The invariant -/

/-- Every record that was written is still in the store, or some call confirmed it. -/
def Accounted (view : σ → Records) (w : World σ) : Prop :=
  ∀ id record, w.written id = some record →
    view w.store id = some record ∨ ∃ call ∈ w.calls, call.Confirms record

theorem accounted_init (view : σ → Records) (s : σ) : Accounted view ⟨s, view s, []⟩ :=
  fun _ _ h => .inl h

theorem accounted_step {view : σ → Records} {w w' : World σ} (h : Accounted view w)
    (hs : Step view w w') : Accounted view w' := by
  intro id record hw
  cases hs with
  | pass _ c t log hk =>
      rcases h id record hw with hrec | ⟨call, hmem, hconf⟩
      · rcases pass_kept hk w t log hrec with hrec | ⟨call, hcalls, hconf⟩
        · exact .inl hrec
        · exact .inr ⟨call, by rw [hcalls]; simp, hconf⟩
      · exact .inr ⟨call, (pass_calls hk w t log).subset hmem, hconf⟩
  | write _ i r s hnew hview =>
      -- the new record is there; the others are what they were
      by_cases hi : id = i
      · subst hi
        refine .inl ?_
        rw [hview, ← hw]
        simp
      · simp only [Function.update_of_ne hi] at hw
        rcases h id record hw with hrec | hcall
        · refine .inl ?_
          rw [hview, Function.update_of_ne hi, hrec]
        · exact .inr hcall

theorem accounted_reachable {view : σ → Records} {w : World σ} (h : Reachable view w) :
    Accounted view w := by
  induction h with
  | init s => exact accounted_init view s
  | tail _ hs ih => exact accounted_step ih hs

/-! ## At the top -/

/--
**No record is lost.** In every world that a store can come to, a record that was written is still
there, byte for byte, or some call of a handler confirmed it; one that is no report is still there.
And what the next pass erases is confirmed by the one call that this pass makes.
-/
theorem record_kept_or_confirmed {view : σ → Records} {w : World σ} (h : Reachable view w) :
    (∀ id record, w.written id = some record →
      view w.store id = some record ∨ ∃ call ∈ w.calls, call.Confirms record) ∧
    (∀ id record fault, w.written id = some record → CrashReport.decode record = .error fault →
      view w.store id = some record) ∧
    ∀ {τ : Type} (c : Courier σ τ) (t : τ) (log : Log) (id : Int64) (record : Bytes),
      c.store.Keeps view → view w.store id = some record →
      view (w.pass c t log).store id ≠ some record →
      ∃ call, (w.pass c t log).calls = w.calls ++ [call] ∧ call.Confirms record := by
  refine ⟨accounted_reachable h, ?_, ?_⟩
  · intro id record fault hw hdec
    rcases accounted_reachable h id record hw with hrec | ⟨call, _, report, _, hok, _⟩
    · exact hrec
    · rw [hdec] at hok
      cases hok
  · intro τ c t log id record hk hrec hgone
    rcases pass_kept hk w t log hrec with hkept | hcall
    · exact absurd hkept hgone
    · exact hcall

/-! ### Two passes and a record in between

The first pass is confirmed as a whole and cannot erase the last record of its batch. Then the monitor
writes one more, and the second pass is confirmed for this one alone. -/

section Run

open CrashReport Courier

/-- Two reports, and between them a text that breaks off. The second report cannot be erased. -/
def beset : MemoryStore where
  records := [(1, encode (bare "a")), (2, octets "\x7b"), (3, encode (bare "b"))]
  deleted := []
  order := none
  faults := [⟨.delete, some 3, "busy"⟩]

/-- The world after the first pass. -/
def sentOnce : World MemoryStore :=
  (⟨beset, MemoryStore.view beset, []⟩ : World MemoryStore).pass scriptedCourier ⟨[], []⟩ []

/-- The world when the monitor has written a third report. -/
def extended : World MemoryStore :=
  { sentOnce with
    store := sentOnce.store.put 4 (encode (bare "c"))
    written := Function.update sentOnce.written 4 (some (encode (bare "c"))) }

/-- The world after the second pass. -/
def sentTwice : World MemoryStore :=
  extended.pass scriptedCourier ⟨[.reports ["c"]], []⟩ []

theorem reachable_extended : Reachable MemoryStore.view extended :=
  .tail (.tail (.init beset) (.pass _ scriptedCourier _ _ MemoryStore.keeps))
    (.write sentOnce 4 _ _ rfl (MemoryStore.view_put _ _ _))

theorem reachable_sentTwice : Reachable MemoryStore.view sentTwice :=
  .tail reachable_extended (.pass extended scriptedCourier _ _ MemoryStore.keeps)

theorem decode_broken : decode (octets "\x7b") = .error .endOfObject := rfl

theorem pendingOf_beset :
    pendingOf (MemoryStore.view beset) [1, 2, 3] = [(1, bare "a"), (3, bare "b")] := by
  have h₁ : MemoryStore.view beset 1 = some (encode (bare "a")) := rfl
  have h₂ : MemoryStore.view beset 2 = some (octets "\x7b") := rfl
  have h₃ : MemoryStore.view beset 3 = some (encode (bare "b")) := rfl
  rw [pendingOf_cons_report h₁ (decode_encode_bare "a"), pendingOf_cons_broken h₂ decode_broken,
    pendingOf_cons_report h₃ (decode_encode_bare "b")]
  rfl

/-- The whole batch is confirmed, the first record is erased, and erasing the other one fails. -/
theorem sendAll_beset :
    (scriptedCourier.recorded.sendAll.perform (beset, (⟨[], []⟩, [])) []).1.1 =
        .error (.store .delete (.told "busy")) ∧
      (scriptedCourier.recorded.sendAll.perform (beset, (⟨[], []⟩, [])) []).1.2.1 =
        { beset with records := [(2, octets "\x7b"), (3, encode (bare "b"))], deleted := [1] } := by
  obtain ⟨log, h⟩ := perform_sendAll_memory (c := scriptedCourier.recorded) rfl
    (s := beset) (by decide) (⟨[], []⟩, []) []
  have hlisted : beset.listed = [1, 2, 3] := rfl
  rw [h, hlisted, pendingOf_beset]
  exact ⟨rfl, rfl⟩

theorem store_extended : extended.store =
    { beset with
      records := [(2, octets "\x7b"), (3, encode (bare "b")), (4, encode (bare "c"))]
      deleted := [1] } := by
  have hput : extended.store = sentOnce.store.put 4 (encode (bare "c")) := rfl
  rw [hput, sentOnce, World.store_pass, sendAll_beset.2]
  rfl

theorem pendingOf_extended : pendingOf (MemoryStore.view extended.store) [2, 3, 4] =
    [(3, bare "b"), (4, bare "c")] := by
  have h₂ : MemoryStore.view extended.store 2 = some (octets "\x7b") := by
    rw [store_extended]; rfl
  have h₃ : MemoryStore.view extended.store 3 = some (encode (bare "b")) := by
    rw [store_extended]; rfl
  have h₄ : MemoryStore.view extended.store 4 = some (encode (bare "c")) := by
    rw [store_extended]; rfl
  rw [pendingOf_cons_broken h₂ decode_broken, pendingOf_cons_report h₃ (decode_encode_bare "b"),
    pendingOf_cons_report h₄ (decode_encode_bare "c")]
  rfl

theorem store_sentTwice : sentTwice.store =
    { beset with records := [(2, octets "\x7b"), (3, encode (bare "b"))], deleted := [1, 4] } := by
  obtain ⟨log, h⟩ := perform_sendAll_memory (c := scriptedCourier.recorded) rfl
    (s := extended.store) (by rw [store_extended]; decide)
    (⟨[.reports ["c"]], []⟩, extended.calls) []
  have hlisted : extended.store.listed = [2, 3, 4] := by rw [store_extended]; rfl
  rw [sentTwice, World.store_pass, h, hlisted, pendingOf_extended, store_extended]
  rfl

/-- The records that are gone were confirmed. The text that breaks off is still there, and so is the
report that could not be erased at first and was left out afterwards. -/
theorem beset_kept_or_confirmed :
    Reachable MemoryStore.view sentTwice ∧
      -- the store cuts the first pass short
      (scriptedCourier.recorded.sendAll.perform (beset, (⟨[], []⟩, [])) []).1.1 =
        .error (.store .delete (.told "busy")) ∧
      MemoryStore.view sentTwice.store 1 = none ∧
      (∃ call ∈ sentTwice.calls, call.Confirms (encode (bare "a"))) ∧
      MemoryStore.view sentTwice.store 2 = some (octets "\x7b") ∧
      MemoryStore.view sentTwice.store 3 = some (encode (bare "b")) ∧
      MemoryStore.view extended.store 4 = some (encode (bare "c")) ∧
      MemoryStore.view sentTwice.store 4 = none ∧
      ∃ call, sentTwice.calls = extended.calls ++ [call] ∧ call.Confirms (encode (bare "c")) := by
  obtain ⟨haccounted, hbroken, _⟩ := record_kept_or_confirmed reachable_sentTwice
  obtain ⟨_, _, hpass⟩ := record_kept_or_confirmed reachable_extended
  have hfirst : MemoryStore.view sentTwice.store 1 = none := by
    rw [store_sentTwice]
    rfl
  have hconfirmed : ∃ call ∈ sentTwice.calls, call.Confirms (encode (bare "a")) :=
    (haccounted 1 _ rfl).resolve_left (by rw [hfirst]; exact nofun)
  have hthird : MemoryStore.view sentTwice.store 3 = some (encode (bare "b")) := by
    rw [store_sentTwice]
    rfl
  have hwritten : MemoryStore.view extended.store 4 = some (encode (bare "c")) := by
    rw [store_extended]
    rfl
  have herased : MemoryStore.view sentTwice.store 4 = none := by
    rw [store_sentTwice]
    rfl
  have hcall : ∃ call, sentTwice.calls = extended.calls ++ [call] ∧
      call.Confirms (encode (bare "c")) := by
    refine hpass scriptedCourier ⟨[.reports ["c"]], []⟩ [] 4 _ MemoryStore.keeps hwritten ?_
    change MemoryStore.view sentTwice.store 4 ≠ _
    rw [herased]
    exact nofun
  exact ⟨reachable_sentTwice, sendAll_beset.1, hfirst, hconfirmed,
    hbroken 2 _ _ rfl decode_broken, hthird, hwritten, herased, hcall⟩

end Run

end Retention

end CrashCourier
