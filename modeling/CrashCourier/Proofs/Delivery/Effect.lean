import CrashCourier.Proofs.Delivery.Confirmation
import CrashCourier.Proofs.Delivery.Receipt
import CrashCourier.Proofs.Delivery.Split
import CrashCourier.Proofs.Store.Refinement

/-!
# What a pass over files comes to

A pass over the files of the monitor, to a collector that it uploads to, is settled by two things:
by what is in the directory, and by the answer of the collector. `Http.Reply.Judged` says what an
answer comes to, one constructor for each kind. The rest is that nothing else has a say in it.
Listing, reading and erasing cannot fail in an orderly directory, so that the pass can be carried out
forward, one step after the other, with the store standing still until the collector has accepted the
batch.
-/

namespace CrashCourier

open Files

/-! ## What an answer comes to -/

namespace Http

/-- Whether a status is that of an answer. Below 200 a status announces one, but for the one that
changes the protocol. -/
def IsFinal (status : Nat) : Prop :=
  status = 101 ∨ 200 ≤ status ∧ status ≤ 999

theorem isFinal_iff {status : Nat} :
    IsFinal status ↔ ¬ (isInformational status || status < 100 || 999 < status) = true := by
  unfold IsFinal isInformational
  simp only [Bool.or_eq_true, Bool.and_eq_true, decide_eq_true_eq]
  omega

section Understood

variable {status : Nat} {body : Bytes} {complete : Bool}

theorem Reply.understood_of_isBodiless (h : IsFinal status) (hbodiless : isBodiless status = true) :
    (answer status body complete).understood = .answer status [] true := by
  unfold understood
  simp only [if_neg (isFinal_iff.mp h), if_pos hbodiless]

theorem Reply.understood_of_isFinal (h : IsFinal status) (hbody : isBodiless status = false) :
    (answer status body complete).understood = .answer status body complete := by
  unfold understood
  simp only [if_neg (isFinal_iff.mp h), hbody]
  rfl

theorem Reply.understood_of_not_isFinal (h : ¬ IsFinal status) :
    (answer status body complete).understood = .silence := by
  unfold understood
  simp only [if_pos (not_not.mp (mt isFinal_iff.mpr h))]

end Understood

/-- What a reply to a batch comes to: the batch has arrived, or it has not, and why. -/
inductive Reply.Judged : Reply → Except HandlerError Unit → Prop where
  /-- An answer from 200 to 299 accepts the batch if it is whole. -/
  | accepted {status : Nat} {body : Bytes} {complete : Bool} : 200 ≤ status → status ≤ 299 →
      complete = true ∨ isBodiless status = true →
      Judged (.answer status body complete) (.ok ())
  | broken {status : Nat} {body : Bytes} {description : String} : 200 ≤ status → status ≤ 299 →
      isBodiless status = false →
      Judged (.answer status body false) (.error (.transport 0 description))
  /-- An answer from 400 to 599 refuses it. A body that breaks off counts as empty. -/
  | refused {status : Nat} {body : Bytes} {complete : Bool} : 400 ≤ status → status ≤ 599 →
      Judged (.answer status body complete)
        (.error (.transport status (message (if complete then body else []))))
  | unclear {status : Nat} {body : Bytes} {complete : Bool} : IsFinal status →
      ¬ (200 ≤ status ∧ status ≤ 299) → ¬ (400 ≤ status ∧ status ≤ 599) →
      Judged (.answer status body complete) (.error (.unacknowledged status))
  /-- No answer, or none yet when the connection ends. -/
  | silent {description : String} : Judged .silence (.error (.transport 0 description))
  | unfinished {status : Nat} {body : Bytes} {complete : Bool} {description : String} :
      ¬ IsFinal status →
      Judged (.answer status body complete) (.error (.transport 0 description))

namespace Order

variable {boundary : String} {o : Order} {request : Request}

theorem result_exchange_silence {reply : Reply} (hmade : o.request? boundary = .ok request)
    (h : reply.understood = .silence) : (o.exchange boundary fun _ => reply).result =
      .error ⟨0, "error sending request for url (" ++ request.url.text ++ ")"⟩ := by
  unfold exchange
  simp only [hmade, h]
  rfl

theorem result_exchange_answer {reply : Reply} {status : Nat} {body : Bytes} {complete : Bool}
    (hmade : o.request? boundary = .ok request)
    (h : reply.understood = .answer status body complete) :
    (o.exchange boundary fun _ => reply).result =
      (o.answered request status body complete).result := by
  unfold exchange
  simp only [hmade, h]

theorem result_answered_accepted {status : Nat} (hlow : 200 ≤ status) (hhigh : status ≤ 299)
    (body : Bytes) (complete : Bool) : (o.answered request status body complete).result =
      if complete then .ok (.delivered body) else .error ⟨0, "error decoding response body"⟩ := by
  unfold answered
  rw [if_pos ⟨hlow, hhigh⟩]
  cases complete <;> rfl

theorem result_answered_refused {status : Nat} (hlow : 400 ≤ status) (hhigh : status ≤ 599)
    (body : Bytes) (complete : Bool) : (o.answered request status body complete).result =
      .error ⟨status, message (if complete then body else [])⟩ := by
  unfold answered
  rw [if_neg (by omega), if_pos ⟨hlow, hhigh⟩]
  rfl

theorem result_answered_unclear {status : Nat} (hnot : ¬ (200 ≤ status ∧ status ≤ 299))
    (hnot' : ¬ (400 ≤ status ∧ status ≤ 599)) (body : Bytes) (complete : Bool) :
    (o.answered request status body complete).result = .ok (.ignored status) := by
  unfold answered
  rw [if_neg hnot, if_neg hnot']
  rfl

theorem not_refusing_of_isBodiless {status : Nat} (h : isBodiless status = true) :
    ¬ (400 ≤ status ∧ status ≤ 599) := by
  unfold isBodiless at h
  simp only [Bool.or_eq_true, beq_iff_eq] at h
  omega

/-- An exchange whose request can be made is judged by the reply alone. -/
theorem judged_exchange (hmade : o.request? boundary = .ok request) (reply : Reply) :
    reply.Judged (verdict (o.exchange boundary fun _ => reply).result) := by
  cases reply with
  | silence =>
      rw [result_exchange_silence hmade rfl]
      exact .silent
  | answer status body complete =>
      by_cases hfinal : IsFinal status
      · cases hbodiless : isBodiless status with
        | true =>
            rw [result_exchange_answer hmade (Reply.understood_of_isBodiless hfinal hbodiless)]
            have hnot : ¬ (400 ≤ status ∧ status ≤ 599) := not_refusing_of_isBodiless hbodiless
            by_cases haccepted : 200 ≤ status ∧ status ≤ 299
            · rw [result_answered_accepted haccepted.1 haccepted.2]
              exact .accepted haccepted.1 haccepted.2 (.inr hbodiless)
            · rw [result_answered_unclear haccepted hnot]
              exact .unclear hfinal haccepted hnot
        | false =>
            rw [result_exchange_answer hmade (Reply.understood_of_isFinal hfinal hbodiless)]
            by_cases haccepted : 200 ≤ status ∧ status ≤ 299
            · rw [result_answered_accepted haccepted.1 haccepted.2]
              cases complete with
              | true => exact .accepted haccepted.1 haccepted.2 (.inl rfl)
              | false => exact .broken haccepted.1 haccepted.2 hbodiless
            · by_cases hrefused : 400 ≤ status ∧ status ≤ 599
              · rw [result_answered_refused hrefused.1 hrefused.2]
                exact .refused hrefused.1 hrefused.2
              · rw [result_answered_unclear haccepted hrefused]
                exact .unclear hfinal haccepted hrefused
      · rw [result_exchange_silence hmade (Reply.understood_of_not_isFinal hfinal)]
        exact .unfinished hfinal

/-- What made one request can be sent. -/
theorem sendable_of_request? (h : o.request? boundary = .ok request) : o.Sendable = true := by
  obtain ⟨url, configured, hurl, hhost, hheaders, hsend, _⟩ := request?_eq_ok.mp h
  unfold Sendable
  rw [hurl, hheaders, Option.any_some, hhost, hsend]
  rfl

end Order

end Http

/-- A collector that could be sent one request can be sent any. -/
theorem Collector.exists_request {boundary : String} {c : Collector} {files₀ : List Bytes}
    {request₀ : Http.Request} (h : (c.order files₀).request? boundary = .ok request₀)
    (files : List Bytes) : ∃ request, (c.order files).request? boundary = .ok request := by
  have hsendable := Http.Order.sendable_of_request? h
  unfold Http.Order.Sendable order at hsendable
  refine Http.Order.exists_request_of_sendable ?_
  unfold Http.Order.Sendable order
  exact hsendable

/-! ## The handler -/

namespace Handler

variable {boundary : String} {c : Collector} {batch : List CrashReport}

/-- The handler sends one request and answers as the reply to it is judged. -/
theorem perform_upload_judged {request : Http.Request}
    (hmade : (c.order (batch.map CrashReport.encode)).request? boundary = .ok request) (w : Wire) :
    ∃ v, w.next.Judged v ∧ ∀ log, ∃ log', (upload boundary c batch).perform w log =
      ((answerOf batch v, w.after (some request)), log') := by
  refine ⟨_, Http.Order.judged_exchange hmade w.next, fun log => ?_⟩
  obtain ⟨log', hperform⟩ := perform_upload_verdict boundary c batch w log
  rw [hmade] at hperform
  exact ⟨log', hperform⟩

end Handler

/-! ## Delivering without a failure of the store -/

namespace Courier

section Refused

variable {σ τ : Type} {c : Courier σ τ}

theorem perform_deliver_nil (s : σ) (t : τ) (log : Log) :
    ∃ log', (c.deliver []).perform (s, t) log = ((.ok [], (s, t)), log') := by
  unfold deliver
  rw [if_pos List.isEmpty_nil, Action.perform_bind_ok (Action.perform_note _ _ _ _ _)]
  exact ⟨_, rfl⟩

theorem diagnosedOf_not_isEmpty (doctor : Doctor) {pending : List Pending} (hne : pending ≠ []) :
    ¬ (diagnosedOf doctor pending).isEmpty = true := by
  rw [diagnosedOf_isEmpty]
  simpa using hne

/-- A batch that is refused leaves the store as it was. -/
theorem perform_deliver_refused {pending : List Pending} (hne : pending ≠ []) {t t' : τ}
    {e : HandlerError}
    (hhand : ∀ log, ∃ log', (c.handler (batchOf c.doctor pending)).perform t log =
      ((.error ⟨batchOf c.doctor pending, e⟩, t'), log')) (s : σ) (log : Log) :
    ∃ log', (c.deliver (diagnosedOf c.doctor pending)).perform (s, t) log =
      ((.error (.delivery e), (s, t')), log') := by
  unfold deliver
  rw [if_neg (diagnosedOf_not_isEmpty c.doctor hne),
    Action.perform_bind_ok (Action.perform_note _ _ _ _ _)]
  generalize log ++ _ = log₁
  obtain ⟨log₂, hanswer⟩ := hhand log₁
  obtain ⟨log₃, hhand⟩ := perform_hand_error (s := s) hanswer
  exact ⟨log₃, Action.perform_bind_error hhand⟩

end Refused

/-- What a verdict on a batch leaves of a store of files, and the result of the pass. A batch that has
arrived is erased, file by file; one that has not leaves the store as it was. -/
inductive Settled (l : Layout) (batch : List CrashReport) (ids : List Int64) (fs : FileStore) :
    Except HandlerError Unit → Except CourierError (List CrashReport) → FileStore → Prop where
  | arrived {fs' : FileStore} : fs'.layout = fs.layout →
      l.records fs'.disk = (l.records fs.disk).without ids → l.Kept fs.disk fs'.disk →
      Settled l batch ids fs (.ok ()) (.ok batch) fs'
  | kept {e : HandlerError} : Settled l batch ids fs (.error e) (.error (.delivery e)) fs

theorem numbers_diagnosedOf (doctor : Doctor) (pending : List Pending) :
    numbers (diagnosedOf doctor pending) = numbers pending := by
  simp [numbers, diagnosedOf, Function.comp_def]

section Erasing

variable {τ : Type} {c : Courier FileStore τ} {l : Layout} {fs : FileStore}

/-- Reports that are all confirmed are erased one after the other, and nothing else is. -/
theorem perform_reconcile_of_ready (hc : c.store = .files) {arrived : List String}
    (pending : List Pending) (hall : ∀ p ∈ pending, p.2.id ∈ arrived) (h : FileStore.Ready l fs)
    (t : τ) (log : Log) :
    ∃ fs' log', (c.reconcile arrived pending).perform (fs, t) log = ((.ok (), (fs', t)), log') ∧
      FileStore.Ready l fs' ∧
      l.records fs'.disk = (l.records fs.disk).without (numbers pending) ∧
      l.Kept fs.disk fs'.disk := by
  induction pending generalizing fs log with
  | nil => exact ⟨fs, log, rfl, h, (Records.without_nil _).symm, .refl l fs.disk⟩
  | cons p rest ih =>
      obtain ⟨id, report⟩ := p
      have hmem : report.id ∈ arrived := hall (id, report) List.mem_cons_self
      obtain ⟨fs₁, log₁, hdelete, hready, hrecords, hkept⟩ := h.perform_delete id log
      have hdelete' : (c.store.delete id).perform fs log = ((.ok (), fs₁), log₁) := by
        rw [hc]
        exact hdelete
      obtain ⟨fs₂, log₂, hrest, hready', hrecords', hkept'⟩ :=
        ih (fun p hp => hall p (List.mem_cons_of_mem _ hp)) hready log₁
      refine ⟨fs₂, log₂, ?_, hready', ?_, hkept.trans hkept'⟩
      · unfold reconcile
        rw [if_pos (by simpa using hmem), Action.perform_bind_ok (perform_onStore_of hdelete' t),
          hrest]
      · rw [hrecords', hrecords, ← Records.without_cons]
        rfl

/-- A batch that has arrived is erased from a store that is ready. -/
theorem perform_deliver_arrived (hc : c.store = .files) {pending : List Pending}
    (hne : pending ≠ []) (h : FileStore.Ready l fs) {t t' : τ}
    (hhand : ∀ log, ∃ log', (c.handler (batchOf c.doctor pending)).perform t log =
      ((.ok (batchOf c.doctor pending), t'), log')) (log : Log) :
    ∃ fs' log', (c.deliver (diagnosedOf c.doctor pending)).perform (fs, t) log =
        ((.ok (batchOf c.doctor pending), (fs', t')), log') ∧
      fs'.layout = fs.layout ∧
      l.records fs'.disk = (l.records fs.disk).without (numbers pending) ∧
      l.Kept fs.disk fs'.disk := by
  unfold deliver
  rw [if_neg (diagnosedOf_not_isEmpty c.doctor hne),
    Action.perform_bind_ok (Action.perform_note _ _ _ _ _)]
  generalize log ++ _ = log₁
  obtain ⟨log₂, hanswer⟩ := hhand log₁
  have hhand := perform_hand_ok (s := fs) hanswer
  -- the whole batch is confirmed, so that every report has a confirmed identifier
  have hall : ∀ p ∈ diagnosedOf c.doctor pending,
      p.2.id ∈ (batchOf c.doctor pending).map (·.id) := fun p hp =>
    List.mem_map_of_mem (List.mem_map_of_mem hp)
  obtain ⟨fs', log₃, herase, hready, hrecords, hkept⟩ :=
    perform_reconcile_of_ready hc (diagnosedOf c.doctor pending) hall h t' log₂
  rw [numbers_diagnosedOf] at hrecords
  rw [batchOf] at hhand herase
  rw [Action.perform_bind_ok hhand, Action.perform_bind_ok herase]
  exact ⟨fs', _, rfl, hready.layout.trans h.layout.symm, hrecords, hkept⟩

/-- Delivering from a store that is ready is settled by the verdict. -/
theorem perform_deliver_of_ready (hc : c.store = .files) {pending : List Pending}
    (hne : pending ≠ []) (h : FileStore.Ready l fs) {t t' : τ} {v : Except HandlerError Unit}
    (hhand : ∀ log, ∃ log', (c.handler (batchOf c.doctor pending)).perform t log =
      ((Handler.answerOf (batchOf c.doctor pending) v, t'), log')) (log : Log) :
    ∃ r fs', Settled l (batchOf c.doctor pending) (numbers pending) fs v r fs' ∧
      ∃ log', (c.deliver (diagnosedOf c.doctor pending)).perform (fs, t) log =
        ((r, (fs', t')), log') := by
  cases v with
  | error e =>
      obtain ⟨log', hdeliver⟩ := perform_deliver_refused hne hhand fs log
      exact ⟨_, fs, .kept, log', hdeliver⟩
  | ok _ =>
      obtain ⟨fs', log', hdeliver, hlayout, hrecords, hkept⟩ :=
        perform_deliver_arrived hc hne h hhand log
      exact ⟨_, fs', .arrived hlayout hrecords hkept, log', hdeliver⟩

end Erasing

section Files

variable {l : Layout} {basePath boundary : String} {c : Collector} {fs : FileStore}

/-- What there is to deliver of some records: the reports among them, ascending by their numbers. -/
def Due (m : Records) (pending : List Pending) : Prop :=
  pending.Pairwise (fun p q => p.1 < q.1) ∧ ∀ id report, (id, report) ∈ pending ↔
    ∃ record, m id = some record ∧ CrashReport.decode record = .ok report

theorem Due.mem_numbers {m : Records} {pending : List Pending} (h : Due m pending) {id : Int64}
    {record : Bytes} (hrecord : m id = some record) :
    id ∈ numbers pending ↔ ∃ report, CrashReport.decode record = .ok report := by
  refine ⟨fun hid => ?_, fun ⟨report, hdecode⟩ => ?_⟩
  · obtain ⟨⟨_, report⟩, hmem, rfl⟩ := List.mem_map.mp hid
    obtain ⟨record', hrecord', hdecode⟩ := (h.2 _ _).mp hmem
    obtain rfl := Option.some.inj (hrecord.symm.trans hrecord')
    exact ⟨report, hdecode⟩
  · exact List.mem_map.mpr ⟨(id, report), (h.2 _ _).mpr ⟨record, hrecord, hdecode⟩, rfl⟩

theorem due_pendingOf {m : Records} {ids : List Int64} (h : m.Keys ids) :
    Due m (pendingOf m ids) := by
  refine ⟨List.Pairwise.filterMap _ ?_ h.1, fun id report => ?_⟩
  · intro id id' hlt p hp p' hp'
    obtain ⟨_, _, hp⟩ := Option.bind_eq_some_iff.mp hp
    obtain ⟨_, _, rfl⟩ := Option.map_eq_some_iff.mp hp
    obtain ⟨_, _, hp'⟩ := Option.bind_eq_some_iff.mp hp'
    obtain ⟨_, _, rfl⟩ := Option.map_eq_some_iff.mp hp'
    exact hlt
  · rw [mem_pendingOf, and_iff_right_iff_imp]
    rintro ⟨record, hrecord, _⟩
    exact (h.2 id).mpr ⟨record, hrecord⟩

/-- If there is a record, the file system has taken its name, so that the store is ready. -/
theorem ready_of_record (hdirectory : l.directory = FileStore.reportsDirectory basePath)
    (hslash : '/' ∉ l.bundleId.toList) (hnul : '\x00' ∉ l.bundleId.toList)
    (hlayout : fs.layout = some l) (hleads : fs.disk.LeadsText l.directory)
    (horderly : l.Orderly fs.disk) {id : Int64} {record : Bytes}
    (hrecord : l.records fs.disk id = some record)
    (hpath : (l.reportPath id).utf8ByteSize ≤ Disk.greatestPath) : FileStore.Ready l fs := by
  have hends : ∃ ch ≠ '/', l.directory.toList.getLast? = some ch :=
    ⟨'s', by decide, hdirectory ▸ FileStore.getLast?_reportsDirectory basePath⟩
  have hget := horderly.get?_place id
  rw [hrecord] at hget
  have hname := horderly.tree.name _ (Disk.mem_of_get? hget (l.place_ne_nil fs.disk id))
    (ReportName.format l.bundleId id) List.getLast?_concat
  rw [ReportName.utf8ByteSize_format] at hname
  rw [Layout.reportPath_eq hslash hends, String.utf8ByteSize_append, String.utf8ByteSize_append,
    ReportName.utf8ByteSize_format] at hpath
  have hsize : "/".utf8ByteSize = 1 := by decide
  exact ⟨⟨hslash, hnul, hname, by omega, hends⟩, hlayout, hleads, horderly⟩

/--
**A pass over the files of the monitor is settled by the answer of the collector.** The store is
installed, its directory is orderly, and the paths of the records are not too long for the file
system. If no record is a report, nothing is sent and nothing happens. Otherwise one request is sent,
with the reports in ascending order of their numbers, diagnosed. If the answer accepts it, the pass
gives these reports, and just their files are erased, whatever identifiers the reports have. If it
does not, the pass fails with what the answer says, and the store is what it was.
-/
theorem pass_over_files (doctor : Doctor)
    (hdirectory : l.directory = FileStore.reportsDirectory basePath)
    (hslash : '/' ∉ l.bundleId.toList) (hnul : '\x00' ∉ l.bundleId.toList)
    (hlayout : fs.layout = some l) (hleads : fs.disk.LeadsText l.directory)
    (horderly : l.Orderly fs.disk)
    (hpath : ∀ id record, l.records fs.disk id = some record →
      (l.reportPath id).utf8ByteSize ≤ Disk.greatestPath)
    {files₀ : List Bytes} {request₀ : Http.Request}
    (hbuilt : (c.order files₀).request? boundary = .ok request₀) (w : Wire) (log : Log) :
    ∃ pending r fs' w' log', Due (l.records fs.disk) pending ∧
      (uploading boundary c doctor).sendAll.perform (fs, w) log = ((r, (fs', w')), log') ∧
      (pending = [] → r = .ok [] ∧ fs' = fs ∧ w' = w) ∧
      (pending ≠ [] → ∃ request v,
        (c.order ((batchOf doctor pending).map CrashReport.encode)).request? boundary =
          .ok request ∧
        w' = w.after (some request) ∧ w.next.Judged v ∧
        Settled l (batchOf doctor pending) (numbers pending) fs v r fs') ∧
      ∀ code text, (CourierError.delivery (.transport code text)).message = text := by
  obtain ⟨ids, log₁, hids, hkeys⟩ :=
    FileStore.perform_ids_of_orderly hlayout hleads horderly log
  have hready {id : Int64} (hid : id ∈ ids) : FileStore.Ready l fs := by
    obtain ⟨record, hrecord⟩ := (hkeys.2 id).mp hid
    exact ready_of_record hdirectory hslash hnul hlayout hleads horderly hrecord
      (hpath id record hrecord)
  have hread : ∀ id ∈ ids, ∀ log, ∃ log', (FileStore.read id).perform fs log =
      ((.ok (l.records fs.disk id), fs), log') := fun id hid log =>
    ⟨log, (hready hid).perform_read id log⟩
  obtain ⟨log₂, hsend⟩ :=
    perform_sendAll_of_reads (c := uploading boundary c doctor) hids hread w
  by_cases hne : pendingOf (l.records fs.disk) ids = []
  · obtain ⟨log', hdeliver⟩ := perform_deliver_nil (c := uploading boundary c doctor) fs w log₂
    rw [hne] at hsend
    exact ⟨_, .ok [], fs, w, log', due_pendingOf hkeys, hsend.trans hdeliver,
      fun _ => ⟨rfl, rfl, rfl⟩, fun hnot => absurd hne hnot, fun _ _ => rfl⟩
  · obtain ⟨p, hp⟩ := List.exists_mem_of_ne_nil _ hne
    obtain ⟨request, hmade⟩ := Collector.exists_request hbuilt
      ((batchOf doctor (pendingOf (l.records fs.disk) ids)).map CrashReport.encode)
    obtain ⟨v, hjudged, hhand⟩ := Handler.perform_upload_judged hmade w
    obtain ⟨r, fs', hsettled, log', hdeliver⟩ := perform_deliver_of_ready
      (c := uploading boundary c doctor) rfl hne (hready (mem_pendingOf.mp hp).1) hhand log₂
    exact ⟨_, r, fs', _, log', due_pendingOf hkeys, hsend.trans hdeliver, fun hnil => absurd hnil hne,
      fun _ => ⟨request, v, hmade, rfl, hjudged, hsettled⟩, fun _ _ => rfl⟩

/-- A directory with two records of one identifier, one that is no report, and a foreign file. -/
def mixed : FileStore :=
  ⟨some (.under "app" "b"),
    ⟨[(["b", "Reports", "app-report-0000000000000001.json"], .file (CrashReport.bare "a").encode),
      (["b", "Reports", "notes.txt"], .file [1]),
      (["b", "Reports", "app-report-ffffffffffffffff.json"], .file (CrashReport.bare "a").encode),
      (["b", "Reports", "app-report-0000000000000002.json"], .file []),
      (["b", "Reports"], .directory), (["b"], .directory)], []⟩⟩

/-- A whole answer of status 200 accepts. -/
theorem eq_ok_of_judged {body : Bytes} {v : Except HandlerError Unit}
    (h : (Http.Reply.answer 200 body true).Judged v) : v = .ok () := by
  cases h with
  | accepted => rfl
  | refused hlow => omega
  | unclear _ hnot => exact absurd ⟨by decide, by decide⟩ hnot
  | unfinished hnot => exact absurd (.inr ⟨by decide, by decide⟩) hnot

theorem mixed_delivered :
    ∃ pending fs' w' log', Due ((Layout.under "app" "b").records mixed.disk) pending ∧
      (uploading "B" (collectorBy .post) CrashReport.diagnose).sendAll.perform (mixed, accepting) [] =
        ((.ok (batchOf CrashReport.diagnose pending), (fs', w')), log') ∧
      (∃ request, w' = accepting.after (some request)) ∧
      (Layout.under "app" "b").records fs'.disk 1 = none ∧
      (Layout.under "app" "b").records fs'.disk (-1) = none ∧
      (Layout.under "app" "b").records fs'.disk 2 = some [] ∧
      fs'.disk.get? ["b", "Reports", "notes.txt"] = some (.file [1]) := by
  have horderly : (Layout.under "app" "b").Orderly mixed.disk := by decide +kernel
  have hpath : ∀ id record, (Layout.under "app" "b").records mixed.disk id = some record →
      ((Layout.under "app" "b").reportPath id).utf8ByteSize ≤ Disk.greatestPath := by
    intro id record _
    rw [Layout.reportPath_eq (by decide) ⟨'s', by decide, by decide⟩, String.utf8ByteSize_append,
      ReportName.utf8ByteSize_format]
    decide
  obtain ⟨request₀, hbuilt⟩ := exists_request "B" .post []
  obtain ⟨pending, r, fs', w', log', hdue, hperform, _, hsome, _⟩ :=
    pass_over_files (l := .under "app" "b") (c := collectorBy .post) CrashReport.diagnose
      (show _ = FileStore.reportsDirectory "b" from rfl) (by decide) (by decide)
      (show mixed.layout = _ from rfl) ⟨rfl, rfl⟩ horderly hpath hbuilt accepting []
  have hdecode := CrashReport.decode_encode_bare "a"
  have hfirst : 1 ∈ numbers pending := (hdue.mem_numbers rfl).mpr ⟨_, hdecode⟩
  have hlast : -1 ∈ numbers pending := (hdue.mem_numbers rfl).mpr ⟨_, hdecode⟩
  have hbroken : 2 ∉ numbers pending := by
    have hempty : (Layout.under "app" "b").records mixed.disk 2 = some [] := rfl
    rw [hdue.mem_numbers hempty]
    rintro ⟨report, hreport⟩
    cases hreport
  have hne : pending ≠ [] := by
    rintro rfl
    cases hfirst
  obtain ⟨request, v, _, hw, hjudged, hsettled⟩ := hsome hne
  obtain rfl := eq_ok_of_judged (v := v) hjudged
  cases hsettled with
  | arrived hlayout hrecords hkept =>
      refine ⟨pending, fs', w', log', hdue, hperform, ⟨request, hw⟩, ?_, ?_, ?_, ?_⟩
      · rw [hrecords]
        exact Records.without_of_mem hfirst
      · rw [hrecords]
        exact Records.without_of_mem hlast
      · rw [hrecords]
        exact Records.without_of_not_mem hbroken
      · have hname : ReportName.parse? "notes.txt" "app" = none := by decide
        exact (hkept.foreign hname).trans rfl

/-! ### Records out of reach -/

/-- The directory of reports with one record. -/
def single : Disk :=
  ⟨[(["Reports", "app-report-0000000000000001.json"], .file (CrashReport.bare "a").encode),
    (["Reports"], .directory)], []⟩

/-- A store that finds it by a base path as long as one likes. -/
def remote (n : Nat) : FileStore :=
  ⟨some (.under "app" (FileStore.dwelling (n + 1))), single⟩

theorem home_remote (n : Nat) :
    (Layout.under "app" (FileStore.dwelling (n + 1))).home single = ["Reports"] := by
  unfold Layout.home Disk.placeOf Layout.under
  rw [FileStore.ofText_reportsDirectory_dwelling]
  rfl

theorem orderly_remote (n : Nat) :
    (Layout.under "app" (FileStore.dwelling (n + 1))).Orderly single := by
  refine Layout.orderly_iff.mpr ⟨by decide, ?_⟩
  rw [home_remote]
  show ∀ e ∈ single.entries, e.1.dropLast = ["Reports"] → ∀ name ∈ e.1.getLast?,
    (ReportName.parse? name "app").all fun id =>
      name = ReportName.format "app" id ∧ e.2 ≠ .directory
  decide +kernel

theorem leadsText_remote {n : Nat} (h : 2 * (n + 1) + 7 ≤ Disk.greatestPath) :
    single.LeadsText (FileStore.reportsDirectory (FileStore.dwelling (n + 1))) := by
  have hhome : single.placeOf
      (.ofText (FileStore.reportsDirectory (FileStore.dwelling (n + 1)))) = ["Reports"] :=
    home_remote n
  unfold Disk.LeadsText
  rw [hhome, FileStore.locate_dwelling h]
  exact ⟨rfl, rfl⟩

theorem records_remote (n : Nat) :
    (Layout.under "app" (FileStore.dwelling (n + 1))).records single 1 =
      some (CrashReport.bare "a").encode := by
  unfold Layout.records Layout.place
  rw [home_remote]
  have hget : single.get? (["Reports"] ++ [ReportName.format "app" 1]) =
      some (.file (CrashReport.bare "a").encode) := rfl
  simp only [Layout.under, hget]

/-- A pass fails if its first record cannot be read. -/
theorem perform_sendAll_of_unread {σ τ : Type} {c : Courier σ τ} {s : σ} {id : Int64}
    {rest : List Int64} {log log₁ : Log} {fault : StoreFault}
    (hids : c.store.ids.perform s log = ((.ok (id :: rest), s), log₁))
    (hread : ∀ log, (c.store.read id).perform s log = ((.error fault, s), log)) (t : τ) :
    ∃ log', c.sendAll.perform (s, t) log = ((.error (.store .read fault), (s, t)), log') := by
  rw [sendAll_eq, Action.perform_bind_ok (perform_onStore_of hids t),
    Action.perform_bind_ok (Action.perform_note _ _ _ _ _)]
  generalize log₁ ++ _ = log₂
  have hone : (c.fetchOne id).perform (s, t) log₂ =
      ((.error (.store .read fault), (s, t)), log₂) :=
    Action.perform_bind_error (perform_onStore_of (hread log₂) t)
  have heach : (c.fetchEach (id :: rest)).perform (s, t) log₂ =
      ((.error (.store .read fault), (s, t)), log₂) :=
    Action.perform_bind_error hone
  exact ⟨log₂, Action.perform_bind_error heach⟩

/-- The store cannot read the record, and so the pass fails before anything is sent. -/
theorem sendAll_remote {n : Nat} (hdirectory : 2 * (n + 1) + 7 ≤ Disk.greatestPath)
    (hreport : Disk.greatestPath < 2 * (n + 1) + 40) :
    ∃ fault log', (uploading "B" (collectorBy .post) CrashReport.diagnose).sendAll.perform
        (remote n, accepting) [] = ((.error (.store .read fault), (remote n, accepting)), log') := by
  obtain ⟨ids, log₁, hids, hkeys⟩ := FileStore.perform_ids_of_orderly (s := remote n) rfl
    (leadsText_remote hdirectory) (orderly_remote n) []
  have hone : 1 ∈ ids := (hkeys.2 1).mpr ⟨_, records_remote n⟩
  cases ids with
  | nil => cases hone
  | cons id rest =>
      have hread : ∀ log, (FileStore.read id).perform (remote n) log = _ :=
        FileStore.perform_read_of_long rfl (FileStore.reportPath_dwelling_long hreport)
      obtain ⟨log', hsend⟩ := perform_sendAll_of_unread
        (c := uploading "B" (collectorBy .post) CrashReport.diagnose) hids hread accepting
      exact ⟨_, log', hsend⟩

/-! ### Answers that are none -/

/-- A collector that announces an answer and gives none. -/
def announcing : Wire :=
  ⟨[], [], .answer 103 [] true⟩

theorem eq_transport_of_judged {body : Bytes} {v : Except HandlerError Unit}
    (h : (Http.Reply.answer 103 body true).Judged v) :
    ∃ description, v = .error (.transport 0 description) := by
  cases h with
  | accepted hlow => omega
  | refused hlow => omega
  | unclear hfinal =>
      unfold Http.IsFinal at hfinal
      omega
  | unfinished => exact ⟨_, rfl⟩

/-- What has only been announced has not been answered. -/
theorem sendAll_announcing :
    ∃ description request log',
      (uploading "b" (collectorBy .post) CrashReport.diagnose).sendAll.perform
          (oneFile (CrashReport.bare "a").encode, announcing) [] =
        ((.error (.delivery (.transport 0 description)),
          (oneFile (CrashReport.bare "a").encode, announcing.after (some request))), log') := by
  let m : Records := fun _ => some (CrashReport.bare "a").encode
  have hpending : pendingOf m [1] = [(1, .bare "a")] :=
    pendingOf_cons_report rfl (CrashReport.decode_encode_bare "a") []
  obtain ⟨request, hmade⟩ := exists_request "b" .post
    ((batchOf CrashReport.diagnose (pendingOf m [1])).map CrashReport.encode)
  obtain ⟨v, hjudged, hhand⟩ := Handler.perform_upload_judged hmade announcing
  obtain ⟨description, rfl⟩ := eq_transport_of_judged hjudged
  obtain ⟨log₁, hids⟩ := perform_ids_oneFile (CrashReport.bare "a").encode []
  have hread : ∀ id ∈ [(1 : Int64)], ∀ log, ∃ log',
      (FileStore.read id).perform (oneFile (CrashReport.bare "a").encode) log =
        ((.ok (m id), oneFile (CrashReport.bare "a").encode), log') := by
    intro id hid log
    obtain rfl := List.mem_singleton.mp hid
    exact perform_read_oneFile _ log
  obtain ⟨log₂, hsend⟩ := perform_sendAll_of_reads
    (c := uploading "b" (collectorBy .post) CrashReport.diagnose) hids hread announcing
  obtain ⟨log₃, hdeliver⟩ := perform_deliver_refused
    (c := uploading "b" (collectorBy .post) CrashReport.diagnose) (by simp [hpending]) hhand
    (oneFile (CrashReport.bare "a").encode) log₂
  exact ⟨description, request, log₃, hsend.trans hdeliver⟩

/-- There is a record, and it is a report. In one store nothing is sent, since its path is too long.
In the other it is sent, and an answer of status 103 does not count as one. -/
theorem remote_unsent_announced_unanswered :
    ((Layout.under "app" (FileStore.dwelling (2029 + 1))).Orderly single ∧
      single.LeadsText (FileStore.reportsDirectory (FileStore.dwelling (2029 + 1))) ∧
      (Layout.under "app" (FileStore.dwelling (2029 + 1))).records single 1 =
        some (CrashReport.bare "a").encode ∧
      CrashReport.decode (CrashReport.bare "a").encode = .ok (.bare "a")) ∧
    (∃ fault log', (uploading "B" (collectorBy .post) CrashReport.diagnose).sendAll.perform
        (remote 2029, accepting) [] =
      ((.error (.store .read fault), (remote 2029, accepting)), log')) ∧
    ∃ description request log',
      (uploading "b" (collectorBy .post) CrashReport.diagnose).sendAll.perform
          (oneFile (CrashReport.bare "a").encode, announcing) [] =
        ((.error (.delivery (.transport 0 description)),
          (oneFile (CrashReport.bare "a").encode, announcing.after (some request))), log') :=
  ⟨⟨orderly_remote 2029, leadsText_remote (by decide), records_remote 2029,
    CrashReport.decode_encode_bare "a"⟩, sendAll_remote (by decide) (by decide), sendAll_announcing⟩

end Files

end Courier

end CrashCourier
