import CrashCourier.Delivery.Setup
import CrashCourier.Proofs.Delivery.Pass
import CrashCourier.Proofs.Delivery.Upload
import CrashCourier.Proofs.Report.Roundtrip
import CrashCourier.Proofs.Store.Files

/-!
# What a collector has received of an erased record

A pass that uploads erases a record because the handler confirmed it, and the handler confirms because
the collector accepted a request. That the report was in this request nobody checks. The settings may
name any of the four methods, a request by a method without a body is sent without the form, and an
answer from 200 to 299 to it confirms the batch like any other.

So the method alone decides, and it decides for every record that any pass erases: with `POST` and
`PUT` the report was in the request that the courier sent, with `GET` and `DELETE` it never was.
Neither the address, the headers, the records nor the doctor makes a difference, nor does the answer,
as long as it is the answer to that request. Requests of the client's own, by which it follows an
answer that names another address, are outside (see `Http.Exchange`).
-/

namespace CrashCourier

namespace CrashReport

/-- What is written of a report is an object, and so it is not empty. -/
theorem encode_ne_nil (r : CrashReport) : encode r ≠ [] := by
  have h : ∃ rest, encode r = 0x7B :: rest := ⟨_, rfl⟩
  obtain ⟨rest, h⟩ := h
  rw [h]
  exact List.cons_ne_nil _ _

end CrashReport

namespace Courier

open CrashReport

variable {boundary : String} {c : Collector} {doctor : Doctor}

/-- The request of a batch holds the report of each of its records if the method has a body, and
else of none. -/
theorem infix_body_iff {batch : List CrashReport} {request : Http.Request} {r : CrashReport}
    (h : (c.order (batch.map encode)).request? boundary = .ok request) (hr : r ∈ batch) :
    encode r <:+: request.body ↔ c.method.hasBody = true := by
  obtain ⟨_, hbody⟩ := Http.Order.of_request? h
  rw [hbody]
  refine ⟨?_, ?_⟩
  · intro hinfix
    by_contra hnot
    -- without a body there is nothing to be found in
    have hnone : (c.order (batch.map encode)).method.hasBody = false := Bool.eq_false_iff.mpr hnot
    rw [Http.Order.content_of_not_hasBody hnone] at hinfix
    exact encode_ne_nil r (List.eq_nil_of_infix_nil hinfix)
  · intro hhas
    exact Http.Order.infix_content hhas rfl (List.mem_map_of_mem hr)

/-- What the call of the handler says of a record that it makes a pass erase. -/
theorem received_of_mem {m : Records} {ids : List Int64} {w w' : Wire} {log log' : Log}
    {sent : List CrashReport} {id : Int64} {record : Bytes}
    (hh : (Handler.upload boundary c (batchOf doctor (pendingOf m ids))).perform w log =
      ((.ok sent, w'), log'))
    (hrec : m id = some record)
    (hid : id ∈ confirmedIds (sent.map (·.id)) (pendingOf m ids)) :
    ∃ report request, decode record = .ok report ∧ w.Accepted request w' ∧
      request.method = c.method ∧
      (encode (report.diagnosed doctor) <:+: request.body ↔ c.method.hasBody = true) := by
  obtain ⟨report, hpend, _⟩ := mem_confirmedIds.mp hid
  obtain ⟨_, record', hrec', hdec⟩ := mem_pendingOf.mp hpend
  obtain rfl : record' = record := Option.some.inj (hrec'.symm.trans hrec)
  obtain ⟨_, request, hmade, haccepted⟩ := Handler.upload_ok hh
  have hmem : report.diagnosed doctor ∈ batchOf doctor (pendingOf m ids) :=
    mem_batchOf.mpr ⟨id, report, hpend, rfl⟩
  exact ⟨report, request, hdec, haccepted, (Http.Order.of_request? hmade).1,
    infix_body_iff hmade hmem⟩

/-! ## A pass over one record -/

section Single

variable {σ τ : Type}

variable {c : Courier σ τ} {s s' : σ} {id : Int64} {report : CrashReport}

theorem perform_reconcile_single (c : Courier σ τ) (report : CrashReport)
    (hdelete : ∀ log, ∃ log', (c.store.delete id).perform s log = ((.ok (), s'), log')) (t : τ)
    (log : Log) :
    ∃ log', (c.reconcile [report.id] [(id, report)]).perform (s, t) log =
      ((.ok (), (s', t)), log') := by
  obtain ⟨log', h⟩ := hdelete log
  unfold reconcile
  rw [if_pos (by simp), Action.perform_bind_ok (perform_onStore_of h t)]
  exact ⟨log', rfl⟩

theorem perform_deliver_single {t t' : τ}
    (hhand : ∀ log, ∃ log', (c.handler [report]).perform t log = ((.ok [report], t'), log'))
    (hdelete : ∀ log, ∃ log', (c.store.delete id).perform s log = ((.ok (), s'), log'))
    (log : Log) :
    ∃ log', (c.deliver [(id, report)]).perform (s, t) log = ((.ok [report], (s', t')), log') := by
  unfold deliver
  rw [if_neg (by simp), Action.perform_bind_ok (Action.perform_note _ _ _ _ _)]
  generalize log ++ _ = log₁
  obtain ⟨log₂, h₂⟩ := hhand log₁
  obtain ⟨log₃, h₃⟩ := perform_reconcile_single c report hdelete t' log₂
  have hbatch : List.map (·.2) [(id, report)] = [report] := rfl
  have harrived : List.map (·.id) [report] = [report.id] := rfl
  rw [hbatch, Action.perform_bind_ok (perform_hand_ok h₂), harrived, Action.perform_bind_ok h₃]
  exact ⟨_, rfl⟩

/-- A pass over a store that lists one record, which is a report, and a handler that confirms it. -/
theorem sendAll_single {t t' : τ} {record : Bytes}
    (hids : ∀ log, ∃ log', c.store.ids.perform s log = ((.ok [id], s), log'))
    (hread : ∀ log, ∃ log', (c.store.read id).perform s log = ((.ok (some record), s), log'))
    (hdec : decode record = .ok report)
    (hhand : ∀ log, ∃ log', (c.handler [report.diagnosed c.doctor]).perform t log =
      ((.ok [report.diagnosed c.doctor], t'), log'))
    (hdelete : ∀ log, ∃ log', (c.store.delete id).perform s log = ((.ok (), s'), log'))
    (log : Log) :
    ∃ log', c.sendAll.perform (s, t) log =
      ((.ok [report.diagnosed c.doctor], (s', t')), log') := by
  have hpending : pendingOf (fun _ => some record) [id] = [(id, report)] :=
    pendingOf_cons_report rfl hdec []
  obtain ⟨log₁, h₁⟩ := hids log
  obtain ⟨log₂, h₂⟩ := perform_sendAll_of_reads (m := fun _ => some record) h₁
    (fun i hi => by rw [List.mem_singleton.mp hi]; exact hread) t
  rw [h₂, hpending]
  exact perform_deliver_single hhand hdelete log₂

end Single

/-! ## One file and one method -/

/-- A store of files that holds one record, under the number 1. -/
def oneFile (record : Bytes) : FileStore :=
  ⟨some ⟨"app", "b/Reports"⟩,
    ⟨[(["b"], .directory), (["b", "Reports"], .directory),
      (["b", "Reports", "app-report-0000000000000001.json"], .file record)], []⟩⟩

/-- A collector that is reached with a method. -/
def collectorBy (m : Http.Method) : Collector where
  url := "http://collector.test/api/v1/reports"
  method := m
  headers := .empty
  timeoutSecs := 15
  attachmentKey := "reports[]"

/-- A collector that accepts every request, before the first one. -/
def accepting : Wire :=
  ⟨[], [], .answer 200 [] true⟩

theorem perform_ids_oneFile (record : Bytes) (log : Log) :
    ∃ log', FileStore.ids.perform (oneFile record) log = ((.ok [1], oneFile record), log') := by
  have hlist : (oneFile record).disk.list "b/Reports" = .ok ["app-report-0000000000000001.json"] :=
    rfl
  have hids : FileStore.idsOf "app" ["app-report-0000000000000001.json"] = [1] :=
    List.mergeSort_singleton _
  have hlisted := FileStore.perform_ids_of_list (s := oneFile record) rfl hlist log
  rwa [hids] at hlisted

theorem perform_read_oneFile (record : Bytes) (log : Log) :
    ∃ log', (FileStore.read 1).perform (oneFile record) log =
      ((.ok (some record), oneFile record), log') :=
  ⟨_, rfl⟩

theorem perform_delete_oneFile (record : Bytes) :
    ∃ fs, ∀ log, ∃ log', (FileStore.delete 1).perform (oneFile record) log =
      ((.ok (), fs), log') :=
  ⟨⟨some ⟨"app", "b/Reports"⟩, (oneFile record).disk.erase
    ["b", "Reports", "app-report-0000000000000001.json"]⟩, fun _ => ⟨_, rfl⟩⟩

theorem exists_request (boundary : String) (m : Http.Method) (files : List Bytes) :
    ∃ request, ((collectorBy m).order files).request? boundary = .ok request := by
  have hurl : (Http.Url.ofText? "http://collector.test/api/v1/reports").any
      (fun url => url.host.isSome && url.isSendable) = true := by
    decide +kernel
  refine Http.Order.exists_request_of_sendable ?_
  unfold Http.Order.Sendable
  rw [Bool.and_eq_true]
  exact ⟨hurl, rfl⟩

theorem sendAll_oneFile (m : Http.Method) {record : Bytes} {report : CrashReport}
    (hdec : decode record = .ok report) :
    ∃ request fs log', ((collectorBy m).order [encode (report.diagnosed diagnose)]).request? "b" =
        .ok request ∧
      (uploading "b" (collectorBy m) diagnose).sendAll.perform (oneFile record, accepting) [] =
        ((.ok [report.diagnosed diagnose], (fs, accepting.after (some request))), log') ∧
      fs.view 1 = none := by
  obtain ⟨request, hmade⟩ := exists_request "b" m [encode (report.diagnosed diagnose)]
  obtain ⟨fs, hdelete⟩ := perform_delete_oneFile record
  have hnext : accepting.next = .answer 200 [] true := rfl
  have hhand : ∀ log, ∃ log', (Handler.upload "b" (collectorBy m)
      [report.diagnosed diagnose]).perform accepting log =
        ((.ok [report.diagnosed diagnose], accepting.after (some request)), log') := fun log =>
    Handler.upload_accepted hmade hnext (by decide) (by decide)
  obtain ⟨log', hp⟩ := sendAll_single (c := uploading "b" (collectorBy m) diagnose)
    (perform_ids_oneFile record) (perform_read_oneFile record) hdec hhand hdelete []
  refine ⟨request, fs, log', hmade, hp, ?_⟩
  obtain ⟨log₁, h₁⟩ := hdelete []
  rcases FileStore.perform_delete h₁ with ⟨_, hview⟩ | ⟨_, fault, hr⟩
  · rw [hview]
    exact Records.without_of_mem (List.mem_singleton.mpr rfl)
  · cases hr

/-! ## At the top -/

/--
**The report of a record that a pass erases was in a request that the collector accepted, if and only
if the configured method has a body.** In either case the pass has sent one request, by that method,
and the collector has answered it with a status from 200 to 299.
-/
theorem erased_record_received {fs fs' : FileStore} {w w' : Wire} {log log' : Log}
    {r : Except CourierError (List CrashReport)}
    (hp : (uploading boundary c doctor).sendAll.perform (fs, w) log = ((r, (fs', w')), log'))
    {id : Int64} {record : Bytes} (hrec : fs.view id = some record)
    (hgone : fs'.view id ≠ some record) :
    ∃ report request, decode record = .ok report ∧ w.Accepted request w' ∧
      request.method = c.method ∧
      (encode (report.diagnosed doctor) <:+: request.body ↔ c.method.hasBody = true) := by
  have hcourse := sendAll_course FileStore.keeps hp
  cases hcourse with
  | unlisted _ hview => exact absurd (by rw [hview, hrec]) hgone
  | unread _ _ _ hview => exact absurd (by rw [hview, hrec]) hgone
  | idle _ _ hview => exact absurd (by rw [hview, hrec]) hgone
  | refused _ _ _ hview => exact absurd (by rw [hview, hrec]) hgone
  | @delivered ids _ _ sent _ _ _ _ hh hview =>
      by_cases hid : id ∈ confirmedIds (sent.map (·.id)) (pendingOf fs.view ids)
      · exact received_of_mem hh hrec hid
      · exact absurd (by rw [hview, Records.without_of_not_mem hid, hrec]) hgone
  | @stuck ids done left _ _ _ _ sent _ _ _ _ hh hsplit _ hview =>
      -- the records before the one that cannot be erased are confirmed ones
      by_cases hid : id ∈ done
      · refine received_of_mem hh hrec ?_
        rw [hsplit]
        exact List.mem_append_left _ hid
      · exact absurd (by rw [hview, Records.without_of_not_mem hid, hrec]) hgone

/-- A report is posted and accepted, and its record is erased: the request holds it. -/
theorem posted_record_received :
    ∃ fs w log report request,
      (uploading "b" (collectorBy .post) diagnose).sendAll.perform
          (oneFile (encode (bare "a")), accepting) [] =
        ((.ok [(bare "a").diagnosed diagnose], (fs, w)), log) ∧
      fs.view 1 = none ∧ decode (encode (bare "a")) = .ok report ∧
      accepting.Accepted request w ∧ encode (report.diagnosed diagnose) <:+: request.body := by
  obtain ⟨_, fs, log, _, hp, hgone⟩ := sendAll_oneFile .post (decode_encode_bare "a")
  have hrec : (oneFile (encode (bare "a"))).view 1 = some (encode (bare "a")) := rfl
  have hgone' : fs.view 1 ≠ some (encode (bare "a")) := by
    rw [hgone]
    exact nofun
  obtain ⟨report, request, hdec, haccepted, _, hiff⟩ := erased_record_received hp hrec hgone'
  exact ⟨fs, _, log, report, request, hp, hgone, hdec, haccepted, hiff.mpr rfl⟩

/-- With settings that are accepted, a report is asked for by `GET` and not sent, and its record is
erased. -/
theorem unsent_record_erased :
    Settings.problems ⟨collectorBy .get, ⟨"app", "b"⟩, ⟨"info"⟩⟩ = [] ∧
      (oneFile (encode (bare "a"))).view 1 = some (encode (bare "a")) ∧
      ∃ fs w log, (uploading "b" (collectorBy .get) diagnose).sendAll.perform
          (oneFile (encode (bare "a")), accepting) [] =
        ((.ok [(bare "a").diagnosed diagnose], (fs, w)), log) ∧
      fs.view 1 = none ∧
      ∀ request ∈ w.seen, ¬ encode ((bare "a").diagnosed diagnose) <:+: request.body := by
  obtain ⟨request, fs, log, hmade, hp, hgone⟩ := sendAll_oneFile .get (decode_encode_bare "a")
  refine ⟨by decide, rfl, fs, _, log, hp, hgone, fun seen hseen => ?_⟩
  obtain rfl : seen = request := List.mem_singleton.mp hseen
  have hmem : (bare "a").diagnosed diagnose ∈ [(bare "a").diagnosed diagnose] :=
    List.mem_singleton.mpr rfl
  rw [infix_body_iff hmade hmem]
  decide

end Courier

end CrashCourier
