import CrashCourier.Proofs.Delivery.Retry

/-!
# Passes that a failure cuts short

A pass stops at the first call that fails. What it has erased until then are the confirmed records
before the one that could not be erased, so that the next pass finds the others and nothing else.

The failures of a store are known from a courier whose store writes them down (`Courier.watched`), as
the calls of the handler are. `Ends` has one constructor for each way in which a pass can end and says
which call of the store has failed in it, if one has, and which records are gone. That every pass ends
in one of these ways is read off the parts of the pass of the watched courier (`ends_of_run`). The
error of the pass names the call that has failed in the words of `Setback.operation`.
-/

namespace CrashCourier

variable {σ τ : Type}

/-- A call of a store that failed, and why. -/
inductive Setback where
  | list (fault : StoreFault)
  | read (id : Int64) (fault : StoreFault)
  | delete (id : Int64) (fault : StoreFault)

/-- The words for what has failed. -/
def Setback.operation : Setback → String
  | list _ => "list report ids"
  | read _ _ => "read a report"
  | delete _ _ => "delete a delivered report"

/-- Why it has failed. -/
def Setback.fault : Setback → StoreFault
  | list fault => fault
  | read _ fault => fault
  | delete _ fault => fault

/-! ## Writing failures down -/

/-- The failure of a call, if it has failed. -/
def setbacksOf {α : Type} (setback : StoreFault → Setback) : Except StoreFault α → List Setback
  | .ok _ => []
  | .error fault => [setback fault]

/-- Does what an action does, and writes its failure down. -/
def Action.watched {α : Type} (a : Action σ StoreFault α) (setback : StoreFault → Setback) :
    Action (σ × List Setback) StoreFault α := fun (s, setbacks) log =>
  let ((r, s), log) := a s log
  ((r, (s, setbacks ++ setbacksOf setback r)), log)

/-- A store that also writes down which listing, reading or erasing fails. -/
def ReportStore.watched (store : ReportStore σ) : ReportStore (σ × List Setback) where
  install bundleId basePath := (store.install bundleId basePath).onFirst
  count := store.count.onFirst
  ids := store.ids.watched .list
  read id := (store.read id).watched (.read id)
  delete id := (store.delete id).watched (.delete id)
  deleteAll := store.deleteAll.onFirst

/-- A courier whose store writes its failures down. -/
def Courier.watched (c : Courier σ τ) : Courier (σ × List Setback) τ :=
  ⟨c.store.watched, c.handler, c.doctor⟩

theorem Action.perform_watched {α : Type} {a : Action σ StoreFault α}
    {setback : StoreFault → Setback} {s s' : σ} {w w' : List Setback} {log log' : Log}
    {r : Except StoreFault α}
    (h : (a.watched setback).perform (s, w) log = ((r, (s', w')), log')) :
    a.perform s log = ((r, s'), log') ∧ w' = w ++ setbacksOf setback r := by
  rcases ha : a s log with ⟨⟨r₁, s₁⟩, log₁⟩
  simp only [Action.perform, Action.watched, ha, Prod.mk.injEq] at h
  obtain ⟨⟨rfl, rfl, rfl⟩, rfl⟩ := h
  exact ⟨ha, rfl⟩

theorem Action.follows_watched {α : Type} (a : Action σ StoreFault α)
    (setback : StoreFault → Setback) : Action.Follows Prod.fst a (a.watched setback) := by
  rintro ⟨s, w⟩ log r ⟨s', w'⟩ log' h
  exact (perform_watched h).1

namespace Courier

/-- A courier whose store writes its failures down does what it would do without that. -/
theorem mirrors_watched (c : Courier σ τ) : Mirrors Prod.fst id c c.watched where
  doctor := rfl
  ids := Action.follows_watched _ _
  read _ := Action.follows_watched _ _
  delete _ := Action.follows_watched _ _
  handler _ _ _ _ _ _ h := h

/-- The failures of the store in a pass. -/
def setbacksIn (c : Courier σ τ) (s : σ) (t : τ) (log : Log) : List Setback :=
  (c.watched.sendAll.perform ((s, []), t) log).1.2.1.2

section Watched

variable {c : Courier σ τ} {view : σ → Records} {s s' : σ} {t t' : τ} {w w' : List Setback}
  {log log' : Log}

/-- One record is read, or the reading that has failed is written down. -/
theorem setbacks_fetchOne {id : Int64} {r : Except CourierError (Option Pending)}
    (h : (c.watched.fetchOne id).perform ((s, w), t) log = ((r, ((s', w'), t')), log')) :
    (∃ found, r = .ok found) ∧ w' = w ∨
      ∃ fault, r = .error (.store .read fault) ∧ w' = w ++ [.read id fault] := by
  rcases Action.perform_bind_cases h with ⟨found, ⟨⟨s₁, w₁⟩, t₁⟩, log₁, h₁, h₂⟩ | ⟨e, h₁, rfl⟩
  · obtain ⟨rfl, r', ha, hr'⟩ := perform_onStore h₁
    obtain ⟨_, rfl⟩ := Action.perform_watched ha
    cases r' with
    | error fault => cases hr'
    | ok found' =>
        refine .inl ?_
        -- what follows only looks at what was found
        cases found with
        | none =>
            cases h₂
            exact ⟨⟨_, rfl⟩, List.append_nil w⟩
        | some record =>
            dsimp only at h₂
            cases hdecode : CrashReport.decode record with
            | ok report =>
                rw [hdecode] at h₂
                cases h₂
                exact ⟨⟨_, rfl⟩, List.append_nil w⟩
            | error fault =>
                rw [hdecode] at h₂
                cases h₂
                exact ⟨⟨_, rfl⟩, List.append_nil w⟩
  · obtain ⟨rfl, r', ha, hr'⟩ := perform_onStore h₁
    obtain ⟨_, rfl⟩ := Action.perform_watched ha
    cases r' with
    | ok found => cases hr'
    | error fault =>
        obtain rfl := Except.error.inj hr'
        exact .inr ⟨fault, rfl, rfl⟩

theorem setbacks_fetchEach {ids : List Int64} {r : Except CourierError (List Pending)}
    (h : (c.watched.fetchEach ids).perform ((s, w), t) log = ((r, ((s', w'), t')), log')) :
    (∃ pending, r = .ok pending) ∧ w' = w ∨
      ∃ id fault, r = .error (.store .read fault) ∧ w' = w ++ [.read id fault] := by
  induction ids generalizing s t w log r s' t' w' log' with
  | nil =>
      cases h
      exact .inl ⟨⟨_, rfl⟩, rfl⟩
  | cons id rest ih =>
      rcases Action.perform_bind_cases h with ⟨here, ⟨⟨s₁, w₁⟩, t₁⟩, log₁, h₁, h₂⟩ | ⟨e, h₁, rfl⟩
      · obtain ⟨_, rfl⟩ | ⟨_, hr, _⟩ := setbacks_fetchOne h₁
        · rcases Action.perform_bind_cases h₂ with
            ⟨others, ⟨⟨s₂, w₂⟩, t₂⟩, log₂, h₃, h₄⟩ | ⟨e, h₃, rfl⟩
          · obtain ⟨_, rfl⟩ | ⟨_, _, hr, _⟩ := ih h₃
            · cases h₄
              exact .inl ⟨⟨_, rfl⟩, rfl⟩
            · cases hr
          · obtain ⟨⟨_, hr⟩, _⟩ | ⟨i, fault, hr, hw⟩ := ih h₃
            · cases hr
            · obtain rfl := Except.error.inj hr
              exact .inr ⟨i, fault, rfl, hw⟩
        · cases hr
      · obtain ⟨⟨_, hr⟩, _⟩ | ⟨fault, hr, hw⟩ := setbacks_fetchOne h₁
        · cases hr
        · obtain rfl := Except.error.inj hr
          exact .inr ⟨id, fault, rfl, hw⟩

/-- Of the records to be erased, all are gone, or those before the one whose failure is written
down. -/
theorem setbacks_erasesEach (hk : c.store.Keeps view) {confirmed : List Int64}
    {r : Except StoreFault Unit}
    (h : ErasesEach c.watched.store confirmed (s, w) r (s', w')) :
    r = .ok () ∧ w' = w ∧ view s' = (view s).without confirmed ∨
      ∃ erased id left fault, confirmed = erased ++ id :: left ∧ r = .error fault ∧
        w' = w ++ [.delete id fault] ∧ view s' = (view s).without erased := by
  generalize hx : (s, w) = x at h
  generalize hy : (s', w') = y at h
  induction h generalizing s w with
  | nil =>
      obtain ⟨rfl, rfl⟩ := Prod.mk.inj (hx.trans hy.symm)
      exact .inl ⟨rfl, rfl, (Records.without_nil _).symm⟩
  | @stop id rest _ _ fault _ _ ha =>
      subst hx hy
      obtain ⟨hdelete, rfl⟩ := Action.perform_watched ha
      refine .inr ⟨[], id, rest, fault, rfl, rfl, rfl, ?_⟩
      rw [hk.delete_error hdelete, Records.without_nil]
  | @cons id rest _ x₁ _ r _ _ ha _ ih =>
      obtain ⟨s₁, w₁⟩ := x₁
      subst hx
      obtain ⟨hdelete, rfl⟩ := Action.perform_watched ha
      rcases ih rfl hy with ⟨hr, hw, hview⟩ | ⟨erased, i, left, fault, hsplit, hr, hw, hview⟩
      · refine .inl ⟨hr, hw.trans (List.append_nil w), ?_⟩
        rw [hview, hk.delete hdelete, ← Records.without_cons]
      · refine .inr ⟨id :: erased, i, left, fault, by rw [hsplit, List.cons_append], hr, ?_, ?_⟩
        · rw [hw, setbacksOf, List.append_nil]
        · rw [hview, hk.delete hdelete, ← Records.without_cons]

theorem gathers_of_watched {ids : List Int64} {pending : List Pending}
    (h : c.watched.Gathers (s, w) t log ids pending (s', w') t') :
    c.Gathers s t log ids pending s' t' ∧ w' = w := by
  obtain ⟨⟨s₁, w₁⟩, log₁, log₂, log₃, hids, hfetch⟩ := h
  obtain ⟨hids', rfl⟩ := Action.perform_watched hids
  have hfetch' := (mirrors_watched c).fetchEach ids _ _ _ _ _ hfetch
  refine ⟨⟨s₁, log₁, log₂, log₃, hids', hfetch'⟩, ?_⟩
  rcases setbacks_fetchEach hfetch with ⟨_, hw⟩ | ⟨_, _, hr, _⟩
  · exact hw.trans (List.append_nil w)
  · cases hr

end Watched

/-! ## How a pass can end -/

/-- The ways in which a pass over the records with these reports can end, with the calls of the store
that have failed in it and the numbers of the records that it has erased. -/
inductive Ends (doctor : Doctor) (pending : List Pending) (p : Pass σ) :
    List Setback → List Int64 → Prop where
  /-- Listing fails. The handler is not called. -/
  | unlisted {fault : StoreFault} : p.calls = [] → p.result = .error (.store .list fault) →
      Ends doctor pending p [.list fault] []
  /-- Reading fails. The handler is not called. -/
  | unread {id : Int64} {fault : StoreFault} : p.calls = [] →
      p.result = .error (.store .read fault) → Ends doctor pending p [.read id fault] []
  /-- There is nothing to deliver. -/
  | idle : pending = [] → p.calls = [] → p.result = .ok [] → Ends doctor pending p [] []
  /-- The handler refuses the batch. -/
  | refused {failure : HandlerFailure} : pending ≠ [] →
      p.calls = [⟨doctor, batchOf doctor pending, .error failure⟩] →
      p.result = .error (.delivery failure.error) → Ends doctor pending p [] []
  /-- All records of the reports that the handler confirms are erased. -/
  | delivered {sent : List CrashReport} : pending ≠ [] →
      p.calls = [⟨doctor, batchOf doctor pending, .ok sent⟩] → p.result = .ok sent →
      Ends doctor pending p [] (confirmedIds (sent.map (·.id)) pending)
  /-- Erasing fails. Those of the confirmed records are erased that come before. -/
  | stuck {sent : List CrashReport} {erased left : List Int64} {id : Int64} {fault : StoreFault} :
      pending ≠ [] → p.calls = [⟨doctor, batchOf doctor pending, .ok sent⟩] →
      p.result = .error (.store .delete fault) →
      confirmedIds (sent.map (·.id)) pending = erased ++ id :: left →
      Ends doctor pending p [.delete id fault] erased

section Passes

variable {c : Courier σ τ} {view : σ → Records} {s s' : σ} {t t' : τ} {log log' : Log}
  {r : Except CourierError (List CrashReport)}

/-- The parts of a pass in which everything is written down. -/
theorem watched_run (h : c.sendAll.perform (s, t) log = ((r, (s', t')), log')) :
    c.recorded.watched.Run (s, []) (t, []) log r (s', c.setbacksIn s t log)
      (t', c.callsIn s t log) := by
  obtain ⟨calls, hrecorded⟩ := shadows_sendAll c s t [] log r s' t' log' h
  obtain ⟨⟨⟨s₁, w⟩, t₁⟩, hwatched, heq⟩ :=
    (mirrors_watched c.recorded).sendAll.exists_perform (x := ((s, []), (t, []))) hrecorded
  obtain ⟨rfl, rfl⟩ : s' = s₁ ∧ (t', calls) = t₁ := ⟨(congrArg (·.1) heq).symm, (congrArg (·.2) heq).symm⟩
  -- it makes no difference which of the two is written down first
  have hplain : c.watched.sendAll.perform ((s, []), t) log = ((r, ((s', w), t')), log') :=
    (mirrors_recorded c.watched).sendAll _ _ _ _ _ hwatched
  have hcalls : c.callsIn s t log = calls := by
    unfold callsIn
    rw [hrecorded]
  have hsetbacks : c.setbacksIn s t log = w := by
    unfold setbacksIn
    rw [hplain]
  rw [hcalls, hsetbacks]
  exact sendAll_run hwatched

/-- How a pass ends that is made of such parts. -/
theorem ends_of_run (hk : c.store.Keeps view) {ids : List Int64} {w : List Setback}
    {calls : List Call} (hlists : ∀ numbers, c.store.Listing s log numbers → numbers = ids)
    (h : c.recorded.watched.Run (s, []) (t, []) log r (s', w) (t', calls)) :
    ∃ erased, Ends c.doctor (pendingOf (view s) ids) ⟨r, calls, s'⟩ w erased ∧
      view s' = (view s).without erased := by
  -- what has been gathered is what is due, and nothing has failed and nobody has been called
  have hgathered : ∀ {numbers pending s₁ w₁ t₁ calls₁},
      c.recorded.watched.Gathers (s, []) (t, []) log numbers pending (s₁, w₁) (t₁, calls₁) →
      pending = pendingOf (view s) ids ∧ view s₁ = view s ∧ w₁ = [] ∧ calls₁ = [] := by
    intro numbers pending s₁ w₁ t₁ calls₁ hgathers
    obtain ⟨hgathers', rfl⟩ := gathers_of_watched (c := c.recorded) hgathers
    obtain ⟨hlisting, rfl, _, hview, ht⟩ := hgathers'.gathered (c := c.recorded) hk
    obtain rfl := hlists numbers hlisting
    exact ⟨rfl, hview, rfl, (Prod.mk.inj ht).2⟩
  cases h with
  | unlisted hids =>
      obtain ⟨hids', rfl⟩ := Action.perform_watched hids
      exact ⟨[], .unlisted rfl rfl, (hk.ids hids').trans (Records.without_nil _).symm⟩
  | @unread numbers e x₁ _ _ _ _ _ hids hfetch =>
      obtain ⟨s₁, w₁⟩ := x₁
      obtain ⟨hids', rfl⟩ := Action.perform_watched hids
      have hfetch' := (mirrors_watched c.recorded).fetchEach _ _ _ _ _ _ hfetch
      have hf := perform_fetchEach (c := c.recorded) hk hfetch'
      rcases setbacks_fetchEach (c := c.recorded) hfetch with ⟨⟨_, hr⟩, _⟩ | ⟨id, fault, hr, rfl⟩
      · cases hr
      · obtain rfl := Except.error.inj hr
        have hview : view s' = view s := hf.records.trans (hk.ids hids')
        exact ⟨[], .unread (Prod.mk.inj hf.handler).2 rfl, hview.trans (Records.without_nil _).symm⟩
  | idle hgathers =>
      obtain ⟨hnil, hview, rfl, rfl⟩ := hgathered hgathers
      exact ⟨[], .idle hnil.symm rfl rfl, hview.trans (Records.without_nil _).symm⟩
  | @refused _ _ _ _ t₁ _ _ _ hgathers hne hanswer =>
      obtain ⟨t₁, calls₁⟩ := t₁
      obtain ⟨rfl, hview, rfl, rfl⟩ := hgathered hgathers
      have hcalls := (Retention.perform_recorded hanswer).2
      exact ⟨[], .refused hne hcalls rfl, hview.trans (Records.without_nil _).symm⟩
  | @confirmed _ _ sent erasing x₁ _ t₁ t₂ _ _ _ _ hgathers hne hanswer herase =>
      obtain ⟨s₁, w₁⟩ := x₁
      obtain ⟨t₁, calls₁⟩ := t₁
      obtain ⟨t₂, calls₂⟩ := t₂
      obtain ⟨rfl, hview, rfl, rfl⟩ := hgathered hgathers
      obtain ⟨hhandler, r', rfl, herases⟩ := reconcile_erasesEach herase
      have hcalls := (Prod.mk.inj hhandler).2.trans (Retention.perform_recorded hanswer).2
      rw [confirmedIds_diagnosedOf] at herases
      rcases setbacks_erasesEach (c := c) hk herases with
        ⟨rfl, rfl, hview'⟩ | ⟨erased, id, left, fault, hsplit, rfl, rfl, hview'⟩
      · rw [hview] at hview'
        exact ⟨_, .delivered hne hcalls rfl, hview'⟩
      · rw [hview] at hview'
        exact ⟨erased, .stuck hne hcalls rfl hsplit, hview'⟩

/-- **How a pass ends** over a store that lists what it holds. -/
theorem ends_sendAll (hk : c.store.Keeps view) {ids : List Int64} (hkeys : (view s).Keys ids)
    (hlists : c.store.Lists view s)
    (h : c.sendAll.perform (s, t) log = ((r, (s', t')), log')) :
    ∃ erased, Ends c.doctor (pendingOf (view s) ids) ⟨r, c.callsIn s t log, s'⟩
        (c.setbacksIn s t log) erased ∧ view s' = (view s).without erased :=
  ends_of_run hk (fun numbers hlisting => (hlists s log numbers .refl hlisting).unique hkeys)
    (watched_run h)

end Passes

/-! ## The next pass -/

/-- There is one list of what is to be delivered. -/
theorem Due.unique {m : Records} {pending pending' : List Pending} (h : Due m pending)
    (h' : Due m pending') : pending = pending' :=
  eq_of_ascending Prod.fst h.1 h'.1 fun (id, report) =>
    (h.2 id report).trans (h'.2 id report).symm

/-- What is to be delivered when records are gone are the others, in their order. -/
theorem Due.without {m : Records} {pending : List Pending} (h : Due m pending)
    (erased : List Int64) : Due (m.without erased) (pending.filter fun p => p.1 ∉ erased) := by
  refine ⟨h.1.filter _, fun id report => ?_⟩
  rw [List.mem_filter, h.2 id report, decide_eq_true_iff, Records.without_apply]
  by_cases hid : id ∈ erased
  · simp [hid]
  · simp [hid]

theorem keys_without {m : Records} {ids : List Int64} (h : m.Keys ids) (erased : List Int64) :
    (m.without erased).Keys (ids.filter fun id => id ∉ erased) := by
  refine ⟨h.1.filter _, fun id => ?_⟩
  rw [List.mem_filter, h.2 id, decide_eq_true_iff, Records.without_apply]
  by_cases hid : id ∈ erased
  · simp [hid]
  · simp [hid]

/-- A pass in which no call of the store fails submits what there is to deliver. -/
theorem Ends.calls {doctor : Doctor} {pending : List Pending} {p : Pass σ} {erased : List Int64}
    (h : Ends doctor pending p [] erased) :
    (pending = [] → p.calls = []) ∧
      (pending ≠ [] → ∃ answer, p.calls = [⟨doctor, batchOf doctor pending, answer⟩]) := by
  cases h with
  | idle hnil hcalls => exact ⟨fun _ => hcalls, fun hne => absurd hnil hne⟩
  | refused hne hcalls => exact ⟨fun hnil => absurd hnil hne, fun _ => ⟨_, hcalls⟩⟩
  | delivered hne hcalls => exact ⟨fun hnil => absurd hnil hne, fun _ => ⟨_, hcalls⟩⟩

/-- If a call of the store fails, the error of the pass is that of the store, and it says in words
which operation has failed. -/
theorem Ends.operation {doctor : Doctor} {pending : List Pending} {p : Pass σ}
    {setbacks : List Setback} {erased : List Int64} (h : Ends doctor pending p setbacks erased)
    {setback : Setback} (hmem : setback ∈ setbacks) :
    ∃ work, p.result = .error (.store work setback.fault) ∧ work.name = setback.operation ∧
      (CourierError.store work setback.fault).message =
        "Report store failed to " ++ setback.operation ++ ": " ++ setback.fault.message := by
  cases h with
  | unlisted _ hresult =>
      obtain rfl := List.mem_singleton.mp hmem
      exact ⟨.list, hresult, rfl, rfl⟩
  | unread _ hresult =>
      obtain rfl := List.mem_singleton.mp hmem
      exact ⟨.read, hresult, rfl, rfl⟩
  | stuck _ _ hresult =>
      obtain rfl := List.mem_singleton.mp hmem
      exact ⟨.delete, hresult, rfl, rfl⟩
  | idle => cases hmem
  | refused => cases hmem
  | delivered => cases hmem

/-- **A pass that is cut short can be resumed.** Over a store of finitely many records that it lists in
ascending order, a pass ends at the first call that fails, in the way that `Ends` says: if listing or
reading fails, or if the handler refuses the batch, nothing is erased, and if erasing fails, those of
the confirmed records are that come before in the listing. If it was a call of the store that failed,
the error names the operation. The next pass, of whatever courier over the store, submits the reports
among the records that are left, in their order, unless the store fails again. -/
theorem resumed_after_failure {c : Courier σ τ} {view : σ → Records} (hk : c.store.Keeps view)
    {s s' : σ} {ids : List Int64} (hkeys : (view s).Keys ids) (hlists : c.store.Lists view s)
    {t t' : τ} {log log' : Log} {r : Except CourierError (List CrashReport)}
    (h : c.sendAll.perform (s, t) log = ((r, (s', t')), log')) :
    ∃ pending erased, Due (view s) pending ∧
      Ends c.doctor pending ⟨r, c.callsIn s t log, s'⟩ (c.setbacksIn s t log) erased ∧
      (∀ setback ∈ c.setbacksIn s t log, ∃ work, r = .error (.store work setback.fault) ∧
        work.name = setback.operation ∧ (CourierError.store work setback.fault).message =
          "Report store failed to " ++ setback.operation ++ ": " ++ setback.fault.message) ∧
      view s' = (view s).without erased ∧
      ∃ left, left = pending.filter (fun p => p.1 ∉ erased) ∧ Due (view s') left ∧
        ∀ {υ : Type} (next : Courier σ υ) (u : υ) (log : Log), next.store = c.store →
          next.setbacksIn s' u log = [] →
          (left = [] → next.callsIn s' u log = []) ∧
          (left ≠ [] → ∃ answer,
            next.callsIn s' u log = [⟨next.doctor, batchOf next.doctor left, answer⟩]) := by
  obtain ⟨erased, hends, hview⟩ := ends_sendAll hk hkeys hlists h
  have hdue := due_pendingOf hkeys
  have hdue' := hdue.without erased
  rw [← hview] at hdue'
  refine ⟨_, erased, hdue, hends, fun _ hmem => hends.operation hmem, hview, _, rfl, hdue',
    fun next u log₁ hstore hnone => ?_⟩
  have hlists' := hlists.of_used (sendAll_course_used hk h).2
  have hkeys' := keys_without hkeys erased
  rw [← hview] at hkeys'
  rcases hnext : next.sendAll.perform (s', u) log₁ with ⟨⟨r₁, s₁, u₁⟩, log₂⟩
  rw [← hstore] at hk hlists'
  obtain ⟨erased', hends', _⟩ := ends_sendAll hk hkeys' hlists' hnext
  rw [hnone, (due_pendingOf hkeys').unique hdue'] at hends'
  exact hends'.calls

/-- A store of two records, the second of which cannot be erased. -/
def stubborn : MemoryStore :=
  { twoRecords "a" "b" with faults := [⟨.delete, some 2, "busy"⟩] }

theorem pendingOf_stubborn : pendingOf (MemoryStore.view stubborn) [1, 2] =
    [(1, CrashReport.bare "a"), (2, CrashReport.bare "b")] :=
  pendingOf_twoRecords "a" "b"

/-- The handler confirms both records, and the second one stays. -/
theorem deliver_stubborn (log : Log) :
    ((scriptedCourier.watched.deliver (diagnosedOf scriptedCourier.doctor
        [(1, CrashReport.bare "a"), (2, CrashReport.bare "b")])).perform
      ((stubborn, []), ⟨[], []⟩) log).1.2.1.2 = [.delete 2 (.told "busy")] := rfl

theorem setbacksIn_stubborn :
    scriptedCourier.setbacksIn stubborn ⟨[], []⟩ [] = [.delete 2 (.told "busy")] := by
  have hread : ∀ id ∈ [(1 : Int64), 2], ∀ log, ∃ log',
      (scriptedCourier.watched.store.read id).perform (stubborn, []) log =
        ((.ok (MemoryStore.view stubborn id), (stubborn, [])), log') := by
    intro id hid log
    rcases List.mem_pair.mp hid with rfl | rfl
    · exact ⟨_, rfl⟩
    · exact ⟨_, rfl⟩
  have hids : scriptedCourier.watched.store.ids.perform (stubborn, []) [] =
      ((.ok [1, 2], (stubborn, [])), []) := rfl
  obtain ⟨log, h⟩ := perform_sendAll_of_reads hids hread ⟨[], []⟩
  rw [setbacksIn, h, pendingOf_stubborn]
  exact deliver_stubborn log

/-- The first of two records is erased, and the second one is left for the next pass. -/
theorem stubborn_resumed :
    ∃ e s' t' log', scriptedCourier.sendAll.perform (stubborn, ⟨[], []⟩) [] =
        ((.error e, (s', t')), log') ∧
      e = .store .delete (.told "busy") ∧
      e.message = "Report store failed to delete a delivered report: busy" ∧
      MemoryStore.view s' = (MemoryStore.view stubborn).without [1] ∧
      Due (MemoryStore.view s') [(2, CrashReport.bare "b")] := by
  rcases h : scriptedCourier.sendAll.perform (stubborn, ⟨[], []⟩) [] with ⟨⟨r, s', t'⟩, log'⟩
  have hsorted : stubborn.Sorted := ⟨rfl, by decide +kernel⟩
  have hkeys : (MemoryStore.view stubborn).Keys [1, 2] := hsorted.keys
  obtain ⟨pending, erased, hdue, hends, hnamed, hview, left, hleft, hdue', _⟩ :=
    resumed_after_failure (c := scriptedCourier) MemoryStore.keeps hkeys hsorted.lists h
  have hpending := (hdue.unique (due_pendingOf hkeys)).trans pendingOf_stubborn
  rw [setbacksIn_stubborn] at hends hnamed
  obtain ⟨work, hr, _, hmessage⟩ := hnamed _ (List.mem_singleton.mpr rfl)
  cases hends with
  | @stuck sent _ left _ _ hne hcalls hresult hsplit =>
      dsimp only at hcalls hresult
      -- the script has run out, so that the whole batch is confirmed
      obtain ⟨_, _, hcalls'⟩ := (calls_scripted (c := scriptedCourier) rfl MemoryStore.keeps
        h).resolve_left (by rw [hcalls]; exact List.cons_ne_nil _ _)
      rw [hcalls] at hcalls'
      obtain ⟨_, rfl, hanswer⟩ := Call.mk.inj (List.singleton_inj.mp hcalls')
      have hsent : sent = batchOf scriptedCourier.doctor pending := Except.ok.inj hanswer
      rw [hsent, confirmedIds_batchOf, hpending] at hsplit
      change [1, 2] = erased ++ 2 :: left at hsplit
      obtain rfl : erased = [1] := by
        rcases erased with _ | ⟨first, _ | ⟨second, rest⟩⟩
        · exact absurd (List.cons.inj hsplit).1 (by decide)
        · rw [(List.cons.inj hsplit).1]
        · exact absurd (congrArg List.length hsplit) (by simp)
      rw [hleft, hpending] at hdue'
      have herror := Except.error.inj (hr.symm.trans hresult)
      exact ⟨_, s', t', log', by rw [hr], herror, hmessage, hview, hdue'⟩

end Courier

end CrashCourier
