import CrashCourier.Proofs.Delivery.Effect
import CrashCourier.Proofs.Delivery.Recording
import Mathlib.Data.List.Sort

/-!
# Trying again

Passes are made one after the other over one store, until a batch arrives and beyond. A pass that is
refused leaves no trace, so that the next one gives the handler the same batch; the one that is
accepted takes away every record of its batch and nothing else; and then there is nothing left to
deliver.

What decides this is that a pass is determined by the records. The store lists the numbers of what it
holds, ascending (`ReportStore.Lists`), and there is one such list, so that the batch is a function of
the records. `pass_cases` says what one pass can come to, `passes_idle` and `passes_until_delivered`
follow it through a row of passes by induction on their number.

The calls of the handler are known from a courier that writes them down. That this changes nothing
else of a pass is `shadows_sendAll`.
-/

namespace CrashCourier

variable {σ τ : Type}

/-! ## What is listed and what is no report -/

/-- A list in the order of its numbers is known by its members. -/
theorem eq_of_ascending {α : Type} (number : α → Int64) {as bs : List α}
    (ha : as.Pairwise fun x y => number x < number y)
    (hb : bs.Pairwise fun x y => number x < number y) (h : ∀ a, a ∈ as ↔ a ∈ bs) : as = bs := by
  have hirrefl : Std.Irrefl fun x y : α => number x < number y := ⟨fun _ => Int64.lt_irrefl⟩
  have hasymm : Std.Antisymm fun x y : α => number x < number y :=
    ⟨fun x y hxy hyx => absurd hyx (Int64.lt_asymm hxy)⟩
  exact List.Pairwise.eq_of_mem_iff ha hb h

theorem Records.Keys.unique {m : Records} {ids ids' : List Int64} (h : m.Keys ids)
    (h' : m.Keys ids') : ids = ids' :=
  eq_of_ascending id h.1 h'.1 fun id => (h.2 id).trans (h'.2 id).symm

/-- Wherever the store comes to, it lists the numbers of the records that it holds, ascending. -/
def ReportStore.Lists (store : ReportStore σ) (view : σ → Records) (s : σ) : Prop :=
  ∀ s₁ log ids, store.Used s s₁ → store.Listing s₁ log ids → (view s₁).Keys ids

theorem ReportStore.Lists.of_used {store : ReportStore σ} {view : σ → Records} {s s' : σ}
    (h : store.Lists view s) (hused : store.Used s s') : store.Lists view s' :=
  fun s₁ log ids hused' hlisting => h s₁ log ids (hused.trans hused') hlisting

/-- The records that are no reports. -/
def Records.undecodable (m : Records) : Records := fun id =>
  (m id).filter fun record => (CrashReport.decode record).toOption.isNone

namespace Courier

theorem Due.without_numbers {m : Records} {pending : List Pending} (h : Due m pending) :
    m.without (numbers pending) = m.undecodable := by
  funext id
  rw [Records.without_apply]
  unfold Records.undecodable
  cases hrecord : m id with
  | none => simp
  | some record =>
      have hmem := h.mem_numbers hrecord
      cases hdecode : CrashReport.decode record with
      | ok report =>
          rw [if_pos (hmem.mpr ⟨report, hdecode⟩), Option.filter_some, hdecode]
          rfl
      | error fault =>
          rw [if_neg, Option.filter_some, hdecode]
          · rfl
          · intro hid
            obtain ⟨report, hok⟩ := hmem.mp hid
            cases hdecode.symm.trans hok

theorem pendingOf_undecodable (m : Records) (ids : List Int64) :
    pendingOf m.undecodable ids = [] := by
  refine List.eq_nil_iff_forall_not_mem.mpr fun p hp => ?_
  obtain ⟨_, record, hrecord, hdecode⟩ := mem_pendingOf.mp hp
  obtain ⟨_, hnone⟩ := Option.filter_eq_some_iff.mp hrecord
  simp [hdecode, Except.toOption] at hnone

theorem Due.pendingOf_eq_nil {m : Records} (h : Due m []) (ids : List Int64) :
    pendingOf m ids = [] := by
  refine List.eq_nil_iff_forall_not_mem.mpr fun p hp => ?_
  obtain ⟨_, record, hrecord, hdecode⟩ := mem_pendingOf.mp hp
  exact List.not_mem_nil ((h.2 _ _).mpr ⟨record, hrecord, hdecode⟩)

/-! ## Writing calls down -/

/-- The second action does what the first one does, and makes what it likes of the calls. -/
def Shadows {α : Type} (a : Work σ τ α) (b : Work σ (τ × List Call) α) : Prop :=
  ∀ s t calls log r s' t' log', a.perform (s, t) log = ((r, (s', t')), log') →
    ∃ calls', b.perform (s, (t, calls)) log = ((r, (s', (t', calls'))), log')

/-- A courier that writes its calls down does what it would do without that. -/
theorem shadows_sendAll (c : Courier σ τ) : Shadows c.sendAll c.recorded.sendAll := by
  intro s t calls log r s' t' log' h
  obtain ⟨⟨_, _, calls'⟩, hrecorded, heq⟩ :=
    (mirrors_recorded c).sendAll.exists_perform (x := (s, (t, calls))) h
  obtain ⟨rfl, rfl⟩ := Prod.mk.inj heq
  exact ⟨calls', hrecorded⟩

/-! ## One pass -/

/-- What came of a pass: its result, the calls of the handler in it, and the store after it. -/
structure Pass (σ : Type) where
  result : Except CourierError (List CrashReport)
  calls : List Call
  store : σ

namespace Pass

variable (p : Pass σ) (view : σ → Records) (doctor : Doctor) (batch : List CrashReport) (m : Records)

/-- There was nothing to deliver and the handler was not called. -/
def Idle : Prop :=
  p.calls = [] ∧ p.result = .ok [] ∧ view p.store = m

/-- The handler was called once, with the batch, and refused it. -/
def Refused : Prop :=
  ∃ failure, p.calls = [⟨doctor, batch, .error failure⟩] ∧
    p.result = .error (.delivery failure.error) ∧ view p.store = m

/-- The handler was called once, with the batch, and returned it. -/
def Delivered : Prop :=
  p.calls = [⟨doctor, batch, .ok batch⟩] ∧ p.result = .ok batch ∧ view p.store = m

end Pass

/-- The calls of the handler in a pass. -/
def callsIn (c : Courier σ τ) (s : σ) (t : τ) (log : Log) : List Call :=
  (c.recorded.sendAll.perform (s, (t, [])) log).1.2.2.2

/-- What a pass that no failure of the store has cut short can come to: nothing was pending, or the
handler was called once. -/
inductive Comes (view : σ → Records) (doctor : Doctor) (m : Records) (pending : List Pending)
    (p : Pass σ) : Prop where
  | idle : pending = [] → p.Idle view m → Comes view doctor m pending p
  | refused {failure : HandlerFailure} : pending ≠ [] →
      p.calls = [⟨doctor, batchOf doctor pending, .error failure⟩] →
      p.result = .error (.delivery failure.error) → view p.store = m →
      Comes view doctor m pending p
  | accepted {sent : List CrashReport} : pending ≠ [] →
      p.calls = [⟨doctor, batchOf doctor pending, .ok sent⟩] → p.result = .ok sent →
      view p.store = m.without (confirmedIds (sent.map (·.id)) pending) →
      Comes view doctor m pending p

/-- If something is pending, the handler is called. -/
theorem Comes.calls_ne_nil {view : σ → Records} {doctor : Doctor} {m : Records}
    {pending : List Pending} {p : Pass σ} (h : Comes view doctor m pending p)
    (hne : pending ≠ []) : p.calls ≠ [] := by
  cases h with
  | idle hnil => exact absurd hnil hne
  | refused _ hcalls => exact hcalls ▸ List.cons_ne_nil _ _
  | accepted _ hcalls => exact hcalls ▸ List.cons_ne_nil _ _

section Passes

variable {c : Courier σ τ} {view : σ → Records} {s s' : σ} {t t' : τ} {log log' : Log}
  {r : Except CourierError (List CrashReport)}

/-- The course of a pass is that of its recorded twin, whose calls are the calls of the pass. -/
theorem recorded_course (hk : c.store.Keeps view)
    (h : c.sendAll.perform (s, t) log = ((r, (s', t')), log')) :
    c.recorded.Course view s (t, []) log r s' (t', c.callsIn s t log) := by
  obtain ⟨calls, hrecorded⟩ := shadows_sendAll c s t [] log r s' t' log' h
  have hcalls : c.callsIn s t log = calls := by
    unfold callsIn
    rw [hrecorded]
  rw [hcalls]
  exact sendAll_course (c := c.recorded) hk hrecorded

/-- **One pass**, at a store that lists what it holds and does not fail. -/
theorem pass_cases (hk : c.store.Keeps view) (hlists : c.store.Lists view s)
    (h : c.sendAll.perform (s, t) log = ((r, (s', t')), log'))
    (hstore : ∀ work fault, r ≠ .error (.store work fault)) :
    ∃ ids, (view s).Keys ids ∧
      Comes view c.doctor (view s) (pendingOf (view s) ids) ⟨r, c.callsIn s t log, s'⟩ := by
  have hcourse := recorded_course hk h
  generalize c.callsIn s t log = calls at hcourse ⊢
  cases hcourse with
  | unlisted => exact absurd rfl (hstore _ _)
  | unread => exact absurd rfl (hstore _ _)
  | stuck => exact absurd rfl (hstore _ _)
  | idle hids hnil hview => exact ⟨_, hlists s log _ .refl hids, .idle hnil ⟨rfl, rfl, hview⟩⟩
  | refused hids hne hanswer hview =>
      have hcalls := (Retention.perform_recorded hanswer).2
      exact ⟨_, hlists s log _ .refl hids, .refused hne hcalls rfl hview⟩
  | delivered hids hne hanswer hview =>
      have hcalls := (Retention.perform_recorded hanswer).2
      exact ⟨_, hlists s log _ .refl hids, .accepted hne hcalls rfl hview⟩

end Passes

/-! ## A row of passes -/

/-- Passes one after the other, between which nothing else happens. -/
def passes (c : Courier σ τ) : Nat → σ → τ → Log → List (Pass σ)
  | 0, _, _, _ => []
  | n + 1, s, t, log =>
    let ((result, (s', t')), log') := c.sendAll.perform (s, t) log
    ⟨result, c.callsIn s t log, s'⟩ :: passes c n s' t' log'

section Row

variable {c : Courier σ τ} {view : σ → Records} {s s' : σ} {t t' : τ} {log log' : Log}
  {r : Except CourierError (List CrashReport)}

theorem passes_succ (h : c.sendAll.perform (s, t) log = ((r, (s', t')), log')) (n : Nat) :
    c.passes (n + 1) s t log = ⟨r, c.callsIn s t log, s'⟩ :: c.passes n s' t' log' := by
  rw [passes, h]

theorem length_passes (c : Courier σ τ) (n : Nat) (s : σ) (t : τ) (log : Log) :
    (c.passes n s t log).length = n := by
  induction n generalizing s t log with
  | zero => rfl
  | succ n ih =>
      rcases h : c.sendAll.perform (s, t) log with ⟨⟨r, s', t'⟩, log'⟩
      rw [passes_succ h, List.length_cons, ih]

/-- The first pass of a row that no failure of the store cuts short, and the row behind it. -/
theorem passes_cons (hk : c.store.Keeps view) (n : Nat) (hlists : c.store.Lists view s)
    (hstore : ∀ p ∈ c.passes (n + 1) s t log, ∀ work fault, p.result ≠ .error (.store work fault)) :
    ∃ p t' log', c.passes (n + 1) s t log = p :: c.passes n p.store t' log' ∧
      (∃ ids, (view s).Keys ids ∧
        Comes view c.doctor (view s) (pendingOf (view s) ids) p) ∧
      c.store.Lists view p.store ∧
      ∀ q ∈ c.passes n p.store t' log', ∀ work fault, q.result ≠ .error (.store work fault) := by
  rcases h : c.sendAll.perform (s, t) log with ⟨⟨r, s', t'⟩, log'⟩
  rw [passes_succ h, List.forall_mem_cons] at hstore
  exact ⟨_, t', log', passes_succ h n, pass_cases hk hlists h hstore.1,
    hlists.of_used (sendAll_course_used hk h).2, hstore.2⟩

/-- Where no record is a report, every pass is idle. -/
theorem passes_idle (hk : c.store.Keeps view) (n : Nat) (hlists : c.store.Lists view s)
    (hnone : ∀ ids, pendingOf (view s) ids = [])
    (hstore : ∀ p ∈ c.passes n s t log, ∀ work fault, p.result ≠ .error (.store work fault)) :
    ∀ p ∈ c.passes n s t log, p.Idle view (view s) := by
  induction n generalizing s t log with
  | zero => exact fun p hp => absurd hp List.not_mem_nil
  | succ n ih =>
      obtain ⟨p, t', log', hpasses, ⟨ids, _, hcomes⟩, hlists', hrest⟩ :=
        passes_cons hk n hlists hstore
      rw [hpasses, List.forall_mem_cons]
      cases hcomes with
      | idle _ hidle =>
          have hview : view p.store = view s := hidle.2.2
          refine ⟨hidle, ?_⟩
          rw [← hview] at hnone ⊢
          exact ih hlists' hnone hrest
      | refused hne => exact absurd (hnone ids) hne
      | accepted hne => exact absurd (hnone ids) hne

/-- A batch that is returned whole is erased whole. -/
theorem confirmedIds_batchOf (doctor : Doctor) (pending : List Pending) :
    confirmedIds ((batchOf doctor pending).map (·.id)) pending = numbers pending := by
  unfold confirmedIds numbers
  rw [List.filter_eq_self.mpr]
  intro p hp
  rw [identifiers_batchOf, List.contains_iff_mem]
  exact List.mem_map_of_mem hp

/-- Where some record is a report and the first pass is accepted, the others are idle. -/
theorem passes_delivered (hk : c.store.Keeps view) (n : Nat) (hlists : c.store.Lists view s)
    {ids : List Int64} (hkeys : (view s).Keys ids) (hne : pendingOf (view s) ids ≠ [])
    (hstore : ∀ p ∈ c.passes n s t log, ∀ work fault, p.result ≠ .error (.store work fault))
    (haccepts : ∀ p, (c.passes n s t log)[0]? = some p →
      ∀ call ∈ p.calls, call.answer = .ok call.batch) :
    ∀ i p, (c.passes n s t log)[i]? = some p →
      (i = 0 → p.Delivered view c.doctor (batchOf c.doctor (pendingOf (view s) ids))
        (view s).undecodable) ∧
      (0 < i → p.Idle view (view s).undecodable) := by
  cases n with
  | zero => exact fun i p hp => nomatch hp
  | succ n =>
      obtain ⟨p₀, t', log', hpasses, ⟨ids', hkeys', hcomes⟩, hlists', hrest⟩ :=
        passes_cons hk n hlists hstore
      obtain rfl := hkeys.unique hkeys'
      rw [hpasses] at haccepts ⊢
      have hanswer := haccepts p₀ rfl
      cases hcomes with
      | idle hnil => exact absurd hnil hne
      | refused _ hcalls =>
          rw [hcalls, List.forall_mem_singleton] at hanswer
          cases hanswer
      | @accepted sent _ hcalls hresult hview =>
          rw [hcalls, List.forall_mem_singleton] at hanswer
          have hsent : sent = batchOf c.doctor (pendingOf (view s) ids) := Except.ok.inj hanswer
          subst hsent
          -- all that was pending is gone, and what is left is no report
          rw [confirmedIds_batchOf, (due_pendingOf hkeys).without_numbers] at hview
          have hidle := passes_idle hk n hlists'
            (fun ids => hview ▸ pendingOf_undecodable _ ids) hrest
          rw [hview] at hidle
          intro i p hp
          cases i with
          | zero =>
              obtain rfl := Option.some.inj hp
              exact ⟨fun _ => ⟨hcalls, hresult, hview⟩, fun hi => absurd hi (Nat.lt_irrefl 0)⟩
          | succ i => exact ⟨fun hi => by omega, fun _ => hidle p (List.mem_of_getElem? hp)⟩

/-- Where some record is a report, passes are refused with one and the same batch until one is
accepted. -/
theorem passes_until_delivered (hk : c.store.Keeps view) (n failing : Nat)
    (hlists : c.store.Lists view s) {ids : List Int64} (hkeys : (view s).Keys ids)
    (hne : pendingOf (view s) ids ≠ [])
    (hstore : ∀ p ∈ c.passes n s t log, ∀ work fault, p.result ≠ .error (.store work fault))
    (hrefuses : ∀ i < failing, ∀ p, (c.passes n s t log)[i]? = some p →
      ∀ call ∈ p.calls, ∃ failure, call.answer = .error failure)
    (haccepts : ∀ p, (c.passes n s t log)[failing]? = some p →
      ∀ call ∈ p.calls, call.answer = .ok call.batch) :
    ∀ i p, (c.passes n s t log)[i]? = some p →
      (i < failing → p.Refused view c.doctor (batchOf c.doctor (pendingOf (view s) ids)) (view s)) ∧
      (i = failing → p.Delivered view c.doctor (batchOf c.doctor (pendingOf (view s) ids))
        (view s).undecodable) ∧
      (failing < i → p.Idle view (view s).undecodable) := by
  induction failing generalizing n s t log with
  | zero =>
      intro i p hp
      obtain ⟨hdelivered, hidle⟩ := passes_delivered hk n hlists hkeys hne hstore haccepts i p hp
      exact ⟨fun hi => absurd hi (Nat.not_lt_zero i), hdelivered, hidle⟩
  | succ failing ih =>
      cases n with
      | zero => exact fun i p hp => nomatch hp
      | succ n =>
          obtain ⟨p₀, t', log', hpasses, ⟨ids', hkeys', hcomes⟩, hlists', hrest⟩ :=
            passes_cons hk n hlists hstore
          obtain rfl := hkeys.unique hkeys'
          rw [hpasses] at hrefuses haccepts ⊢
          have hanswer := hrefuses 0 (Nat.succ_pos failing) p₀ rfl
          cases hcomes with
          | idle hnil => exact absurd hnil hne
          | accepted _ hcalls =>
              rw [hcalls, List.forall_mem_singleton] at hanswer
              obtain ⟨failure, hanswer⟩ := hanswer
              cases hanswer
          | @refused failure _ hcalls hresult hview =>
              -- the store is as it was, and so are the batch and what is left to come
              have hpasses' := ih n hlists' (hview ▸ hkeys) (hview ▸ hne) hrest
                (fun i hi => hrefuses (i + 1) (Nat.succ_lt_succ hi)) haccepts
              rw [hview] at hpasses'
              intro i p hp
              cases i with
              | zero =>
                  obtain rfl := Option.some.inj hp
                  exact ⟨fun _ => ⟨failure, hcalls, hresult, hview⟩, fun hi => by omega,
                    fun hi => by omega⟩
              | succ i =>
                  obtain ⟨hrefused, hdelivered, hidle⟩ := hpasses' i p hp
                  exact ⟨fun hi => hrefused (by omega), fun hi => hdelivered (by omega),
                    fun hi => hidle (by omega)⟩

/-- **Refused passes leave no trace, and an accepted one drains the store.** Of any number of passes
over a store of finitely many records, let the handler refuse the first `failing` and return its
whole batch in the next. If some record is a report, each of these passes calls the handler once,
with one and the same batch: the reports among the records, ascending by their numbers, diagnosed and
otherwise as they are. The refused ones leave the store as it was, the accepted one returns the batch
and leaves the records that are no reports, and every pass after it returns nothing and calls nobody.
If no record is a report, every pass does. -/
theorem refused_until_drained (hk : c.store.Keeps view) {ids : List Int64}
    (hkeys : (view s).Keys ids) (hlists : c.store.Lists view s) {n failing : Nat}
    (hstore : ∀ p ∈ c.passes n s t log, ∀ work fault, p.result ≠ .error (.store work fault))
    (hrefuses : ∀ i < failing, ∀ p, (c.passes n s t log)[i]? = some p →
      ∀ call ∈ p.calls, ∃ failure, call.answer = .error failure)
    (haccepts : ∀ p, (c.passes n s t log)[failing]? = some p →
      ∀ call ∈ p.calls, call.answer = .ok call.batch) :
    ∃ pending batch, Due (view s) pending ∧
      batch = pending.map (fun (_, report) =>
        { report with crash := { report.crash with diagnosis := c.doctor report } }) ∧
      (c.passes n s t log).length = n ∧
      (pending ≠ [] → ∀ i p, (c.passes n s t log)[i]? = some p →
        (i < failing → p.Refused view c.doctor batch (view s)) ∧
        (i = failing → p.Delivered view c.doctor batch (view s).undecodable) ∧
        (failing < i → p.Idle view (view s).undecodable)) ∧
      (pending = [] → ∀ p ∈ c.passes n s t log, p.Idle view (view s)) := by
  have hdue := due_pendingOf hkeys
  refine ⟨_, batchOf c.doctor (pendingOf (view s) ids), hdue, ?_, length_passes c n s t log, ?_, ?_⟩
  · unfold batchOf diagnosedOf
    rw [List.map_map]
    rfl
  · exact fun hne => passes_until_delivered hk n failing hlists hkeys hne hstore hrefuses haccepts
  · intro hnil
    rw [hnil] at hdue
    exact passes_idle hk n hlists hdue.pendingOf_eq_nil hstore

end Row

/-! ## A store in memory and a script -/

/-- A store that never fails makes no pass fail for it. -/
theorem passes_of_neverFails {c : Courier σ τ} {view : σ → Records} (hk : c.store.Keeps view)
    (n : Nat) {s : σ} (hn : c.store.NeverFails s) (t : τ) (log : Log) :
    ∀ p ∈ c.passes n s t log, ∀ work fault, p.result ≠ .error (.store work fault) := by
  induction n generalizing s t log with
  | zero => exact fun p hp => absurd hp List.not_mem_nil
  | succ n ih =>
      rcases h : c.sendAll.perform (s, t) log with ⟨⟨r, s', t'⟩, log'⟩
      obtain ⟨hcourse, hused⟩ := sendAll_course_used hk h
      rw [passes_succ h, List.forall_mem_cons]
      refine ⟨fun work fault hr => ?_, ih (hn.of_used hused) t' log'⟩
      change r = _ at hr
      cases hcourse with
      | unlisted hfails => exact hn.ids _ hfails
      | unread _ _ hfails => exact hn.read _ _ hfails
      | stuck _ _ _ _ hfails => exact hn.delete _ _ hfails
      | idle => cases hr
      | refused => cases hr
      | delivered => cases hr

theorem perform_scripted (batch : List CrashReport) (t : Script) (log : Log) :
    (Handler.scripted batch).perform t log =
      (((t.verdicts.head?.getD .all).answer batch, ⟨t.verdicts.tail, t.batches ++ [batch]⟩),
        log) := by
  unfold Handler.scripted
  rw [Action.perform_bind_ok (Action.perform_get t log),
    Action.perform_bind_ok (Action.perform_set t _ log)]
  cases (t.verdicts.head?.getD .all).answer batch with
  | ok sent => rfl
  | error failure => rfl

/-- In a pass a script is played on by one verdict, or not at all. -/
theorem calls_scripted {c : Courier σ Script} {view : σ → Records} (hc : c.handler = .scripted)
    (hk : c.store.Keeps view) {s s' : σ} {t t' : Script} {log log' : Log}
    {r : Except CourierError (List CrashReport)}
    (h : c.sendAll.perform (s, t) log = ((r, (s', t')), log')) :
    c.callsIn s t log = [] ∨ ∃ batch, t'.verdicts = t.verdicts.tail ∧ c.callsIn s t log =
      [⟨c.doctor, batch, (t.verdicts.head?.getD .all).answer batch⟩] := by
  -- the handler has been asked once if it has been asked
  have hasked : ∀ {batch answer calls log₁ log₂}, (c.recorded.handler batch).perform (t, []) log₁ =
      ((answer, (t', calls)), log₂) → t'.verdicts = t.verdicts.tail ∧
        calls = [⟨c.doctor, batch, (t.verdicts.head?.getD .all).answer batch⟩] := by
    intro batch answer calls log₁ log₂ hanswer
    obtain ⟨hperform, hcalls⟩ := Retention.perform_recorded hanswer
    change (c.handler batch).perform t log₁ = _ at hperform
    rw [hc, perform_scripted] at hperform
    obtain ⟨hpair, rfl⟩ := Prod.mk.inj hperform
    obtain ⟨rfl, rfl⟩ := Prod.mk.inj hpair
    exact ⟨rfl, hcalls⟩
  have hcourse := recorded_course hk h
  generalize c.callsIn s t log = calls at hcourse ⊢
  cases hcourse with
  | unlisted => exact .inl rfl
  | unread => exact .inl rfl
  | idle => exact .inl rfl
  | refused _ _ hanswer => exact .inr ⟨_, hasked hanswer⟩
  | delivered _ _ hanswer => exact .inr ⟨_, hasked hanswer⟩
  | stuck _ _ hanswer => exact .inr ⟨_, hasked hanswer⟩

/-- A script of refusals refuses as many passes, and the next one is accepted. -/
theorem passes_scripted {c : Courier σ Script} {view : σ → Records} (hc : c.handler = .scripted)
    (hk : c.store.Keeps view) (n : Nat) (errors : List HandlerError) {s : σ} {t : Script} {log : Log}
    (ht : t.verdicts = errors.map .fail) (hlists : c.store.Lists view s) {ids : List Int64}
    (hkeys : (view s).Keys ids) (hne : pendingOf (view s) ids ≠ [])
    (hstore : ∀ p ∈ c.passes n s t log, ∀ work fault, p.result ≠ .error (.store work fault)) :
    (∀ i < errors.length, ∀ p, (c.passes n s t log)[i]? = some p →
      ∀ call ∈ p.calls, ∃ failure, call.answer = .error failure) ∧
    ∀ p, (c.passes n s t log)[errors.length]? = some p →
      ∀ call ∈ p.calls, call.answer = .ok call.batch := by
  induction errors generalizing n s t log with
  | nil =>
      refine ⟨fun i hi => absurd hi (Nat.not_lt_zero i), fun p hp call hcall => ?_⟩
      cases n with
      | zero => cases hp
      | succ n =>
          rcases h : c.sendAll.perform (s, t) log with ⟨⟨r, s', t'⟩, log'⟩
          rw [passes_succ h] at hp
          obtain rfl := Option.some.inj hp
          change call ∈ c.callsIn s t log at hcall
          rcases calls_scripted hc hk h with hcalls | ⟨batch, _, hcalls⟩
          · rw [hcalls] at hcall
            cases hcall
          · rw [hcalls, ht, List.mem_singleton] at hcall
            subst hcall
            rfl
  | cons error errors ih =>
      cases n with
      | zero => exact ⟨fun i _ p hp => (nomatch hp), fun p hp => (nomatch hp)⟩
      | succ n =>
          rcases h : c.sendAll.perform (s, t) log with ⟨⟨r, s', t'⟩, log'⟩
          rw [passes_succ h] at hstore ⊢
          rw [List.forall_mem_cons] at hstore
          obtain ⟨ids', hkeys', hcomes⟩ := pass_cases hk hlists h hstore.1
          obtain rfl := hkeys.unique hkeys'
          -- something is pending, so that the verdict is played
          obtain ⟨batch, ht', hcalls⟩ :=
            (calls_scripted hc hk h).resolve_left (hcomes.calls_ne_nil hne)
          rw [ht, List.map_cons, List.tail_cons] at ht'
          rw [ht] at hcalls
          have hlists' := hlists.of_used (sendAll_course_used hk h).2
          have hview : view s' = view s := by
            cases hcomes with
            | idle hnil => exact absurd hnil hne
            | refused _ _ _ hview => exact hview
            | accepted _ hcalls' => cases hcalls.symm.trans hcalls'
          obtain ⟨hrefuses, haccepts⟩ := ih n ht' hlists' (hview ▸ hkeys) (hview ▸ hne) hstore.2
          refine ⟨fun i hi p hp call hcall => ?_, haccepts⟩
          cases i with
          | zero =>
              obtain rfl := Option.some.inj hp
              rw [hcalls, List.mem_singleton] at hcall
              subst hcall
              exact ⟨_, rfl⟩
          | succ i => exact hrefuses i (Nat.lt_of_succ_lt_succ hi) p hp call hcall

end Courier

namespace MemoryStore

/-- The numbers of the records ascend, and they are listed as they are. -/
structure Sorted (s : MemoryStore) : Prop where
  order : s.order = none
  records : s.records.Pairwise (·.1 < ·.1)

theorem Sorted.keys {s : MemoryStore} (h : s.Sorted) : (view s).Keys s.listed := by
  rw [listed, h.order]
  refine ⟨List.pairwise_map.mpr h.records, fun id => ?_⟩
  have hnone : view s id = none ↔ ∀ e ∈ s.records, id ≠ e.1 := by
    simp only [view, List.lookup_eq_none_iff, bne_iff_ne]
  constructor
  · intro hid
    obtain ⟨e, he, rfl⟩ := List.mem_map.mp hid
    exact Option.ne_none_iff_exists'.mp fun h => hnone.mp h e he rfl
  · rintro ⟨record, hrecord⟩
    by_contra hnot
    rw [hnone.mpr fun e he heq => hnot (heq ▸ List.mem_map_of_mem he)] at hrecord
    cases hrecord

theorem Sorted.of_used {s s' : MemoryStore} (h : s.Sorted) (hused : ReportStore.memory.Used s s') :
    s'.Sorted := by
  refine hused.preserves ?_ ?_ ?_ h
  · intro s s' log log' r hp hs
    rcases perform_check_cases hp with hp | ⟨rfl, _⟩
    · cases hp
      exact hs
    · exact hs
  · intro id s s' log log' r hp hs
    rcases perform_check_cases hp with hp | ⟨rfl, _⟩
    · cases hp
      exact hs
    · exact hs
  · intro id s s' log log' r hp hs
    rcases perform_check_cases hp with hp | ⟨rfl, _⟩
    · cases hp
      exact ⟨hs.order, hs.records.filter _⟩
    · exact hs

theorem Sorted.lists {s : MemoryStore} (h : s.Sorted) : ReportStore.memory.Lists view s := by
  rintro s₁ log ids hused ⟨s₂, log₂, hids⟩
  have hsorted := h.of_used hused
  rcases perform_check_cases hids with hids | ⟨_, _, fault, hr⟩
  · cases hids
    exact hsorted.keys
  · cases hr

end MemoryStore

namespace Courier

/-- A store of three records. Two are reports of one identifier, and the one between is none. -/
def threeRecords : MemoryStore :=
  ((MemoryStore.empty.put 1 (CrashReport.bare "a").encode).put 2 (octets "\x7b")).put 3
    (CrashReport.bare "a").encode

/-- The handler refuses the first pass and accepts the second, and nothing is left for the third. -/
theorem threeRecords_delivered :
    ∃ pending batch, Due (MemoryStore.view threeRecords) pending ∧
      ∃ p₀ p₁ p₂, scriptedCourier.passes 3 threeRecords ⟨[.fail (.other "no")], []⟩ [] =
          [p₀, p₁, p₂] ∧
        p₀.Refused MemoryStore.view scriptedCourier.doctor batch (MemoryStore.view threeRecords) ∧
        p₁.Delivered MemoryStore.view scriptedCourier.doctor batch
          (MemoryStore.view threeRecords).undecodable ∧
        p₂.Idle MemoryStore.view (MemoryStore.view threeRecords).undecodable := by
  have hsorted : threeRecords.Sorted := ⟨rfl, by decide +kernel⟩
  have hreport : MemoryStore.view threeRecords 1 = some (CrashReport.bare "a").encode := rfl
  have hne : ∀ {pending}, Due (MemoryStore.view threeRecords) pending → pending ≠ [] := by
    rintro pending hdue rfl
    exact List.not_mem_nil ((hdue.mem_numbers hreport).mpr ⟨_, CrashReport.decode_encode_bare "a"⟩)
  have hkeys := hsorted.keys
  have hstore := passes_of_neverFails (c := scriptedCourier) MemoryStore.keeps 3
    (MemoryStore.neverFails (s := threeRecords) rfl) ⟨[.fail (.other "no")], []⟩ []
  obtain ⟨hrefuses, haccepts⟩ := passes_scripted (c := scriptedCourier) rfl MemoryStore.keeps 3
    [.other "no"] rfl hsorted.lists hkeys (hne (due_pendingOf hkeys)) hstore
  obtain ⟨pending, batch, hdue, _, hlength, hcourse, _⟩ := refused_until_drained
    (c := scriptedCourier) MemoryStore.keeps hkeys hsorted.lists hstore hrefuses haccepts
  obtain ⟨p₀, p₁, p₂, hpasses⟩ := List.length_eq_three.mp hlength
  have hthree := hcourse (hne hdue)
  rw [hpasses] at hthree
  exact ⟨pending, batch, hdue, p₀, p₁, p₂, hpasses, (hthree 0 p₀ rfl).1 Nat.zero_lt_one,
    (hthree 1 p₁ rfl).2.1 rfl, (hthree 2 p₂ rfl).2.2 (Nat.lt_succ_self 1)⟩

end Courier

end CrashCourier
