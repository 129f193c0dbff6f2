import CrashCourier.Proofs.Delivery.Upload
import CrashCourier.Proofs.Http.Multipart
import CrashCourier.Proofs.Report.Roundtrip

/-!
# A batch can be split again

What a collector that knows the boundary makes of an uploaded batch: one file for each report, in the
order of the batch, and each holds the text of its report octet for octet.

Nobody picks the boundary so that it does not occur in the reports, and it may occur there. It does
no harm because a report is written as one line, and that line begins with a brace. The boundary
counts only in a line of its own.
-/

namespace CrashCourier

open Http Multipart

variable {boundary : String} {c : Collector}

namespace CrashReport

theorem head_encode (r : CrashReport) : (encode r).head? = some 0x7B := rfl

/-- A report is one line, and none that stands around parts. -/
theorem not_isFrame_encode (r : CrashReport) : ∀ line ∈ lines (encode r), ¬ IsFrame boundary line := by
  have hcr : (0x0D : UInt8) ∉ encode r := fun h =>
    absurd (Json.Record.uncontrolled_toBytes r 0x0D h) (by decide)
  intro line hline
  rw [lines_eq_singleton hcr, List.mem_singleton] at hline
  refine not_isFrame_of_head ?_
  rw [hline, head_encode]
  decide

end CrashReport

/-- The batch that a collector reads is the batch that was written. -/
theorem Collector.read?_batch (hboundary : OneLine boundary) (hkey : Quotable c.attachmentKey)
    (batch : List CrashReport) :
    read? boundary (body boundary c.attachmentKey (batch.map CrashReport.encode) []) =
      some (batch.mapIdx fun i r => .file c.attachmentKey (i + 1) r.encode) := by
  have hclear : ∀ file ∈ batch.map CrashReport.encode, ∀ line ∈ lines file,
      ¬ IsFrame boundary line := by
    intro file hfile
    obtain ⟨r, _, rfl⟩ := List.mem_map.mp hfile
    exact r.not_isFrame_encode
  rw [read?_files hboundary hkey hclear]
  exact congrArg some (List.ext_getElem (by simp) fun i _ _ => by simp)

/-- The body of the request for a batch is the form of its reports, if the method has a body. -/
theorem Collector.body_of_request {batch : List CrashReport} {request : Request}
    (hmethod : c.method.hasBody = true)
    (h : (c.order (batch.map CrashReport.encode)).request? boundary = .ok request) :
    request.body = body boundary c.attachmentKey (batch.map CrashReport.encode) [] := by
  obtain ⟨_, hbody⟩ := Order.of_request? h
  have hhas : (c.order (batch.map CrashReport.encode)).method.hasBody = true := hmethod
  rw [hbody, Order.content, hhas]
  rfl

/-- An exchange sends the request of its order, whatever the collector answers. -/
theorem Http.Order.sent_exchange (o : Order) (collector : Request → Reply) :
    (o.exchange boundary collector).sent = (o.request? boundary).toOption := by
  unfold exchange
  cases o.request? boundary with
  | error refusal => rfl
  | ok request =>
      dsimp only
      cases (collector request).understood with
      | silence => rfl
      | answer status body complete => exact sent_answered _ _ _ _ _

/-- The result of an exchange as a handler tells of it. -/
def Http.verdict : Except NetworkError Outcome → Except HandlerError Unit
  | .ok (.delivered _) => .ok ()
  | .ok (.ignored status) => .error (.unacknowledged status)
  | .error e => .error (.ofNetwork e)

/-- What the handler answers by a verdict. -/
def Handler.answerOf (batch : List CrashReport) :
    Except HandlerError Unit → Except HandlerFailure (List CrashReport)
  | .ok () => .ok batch
  | .error e => .error ⟨batch, e⟩

theorem Handler.perform_conclude (batch : List CrashReport)
    (result : Except Http.NetworkError Http.Outcome) (w : Wire) (log : Log) :
    ∃ log', (conclude batch result).perform w log =
      ((answerOf batch (Http.verdict result), w), log') := by
  cases result with
  | error e => exact ⟨_, rfl⟩
  | ok outcome => cases outcome <;> exact ⟨_, rfl⟩

/-- An upload sends the request for the batch and tells of the exchange. -/
theorem Handler.perform_upload_verdict (boundary : String) (c : Collector)
    (batch : List CrashReport) (w : Wire) (log : Log) :
    ∃ log', (upload boundary c batch).perform w log =
      ((answerOf batch (Http.verdict (exchangeOf boundary c batch w).result),
        w.after ((c.order (batch.map CrashReport.encode)).request? boundary).toOption), log') := by
  obtain ⟨log₁, hupload⟩ := perform_upload boundary c batch w log
  obtain ⟨log', hconclude⟩ := perform_conclude batch (exchangeOf boundary c batch w).result
    (w.after (exchangeOf boundary c batch w).sent) log₁
  have hsent : (exchangeOf boundary c batch w).sent =
      ((c.order (batch.map CrashReport.encode)).request? boundary).toOption :=
    Order.sent_exchange _ _
  rw [hsent] at hupload hconclude
  exact ⟨log', hupload.trans hconclude⟩

/-- **A collector can always split an uploaded batch back into its reports.** For any batch and any
boundary that is one line, the form that is uploaded is read as exactly one file for each report, in
the order of the batch, each under the key of the collector, numbered from one, and holding the text
of the report. What the handler sends is the request for the batch, and by a method that has a body
its body is this form. -/
theorem Collector.split_upload (hboundary : OneLine boundary) (hkey : Quotable c.attachmentKey)
    (batch : List CrashReport) :
    read? boundary (body boundary c.attachmentKey (batch.map CrashReport.encode) []) =
        some (batch.mapIdx fun i r => ⟨octets c.attachmentKey,
          some (octets ("report" ++ toString (i + 1) ++ ".json")), r.encode⟩) ∧
      (∀ w log, ∃ answer log', (Handler.upload boundary c batch).perform w log =
        ((answer, w.after ((c.order (batch.map CrashReport.encode)).request? boundary).toOption),
          log')) ∧
      (c.method.hasBody = true → ∀ request,
        (c.order (batch.map CrashReport.encode)).request? boundary = .ok request →
          request.body = body boundary c.attachmentKey (batch.map CrashReport.encode) []) := by
  refine ⟨read?_batch hboundary hkey batch, fun w log => ?_,
    fun hmethod _ hmade => body_of_request hmethod hmade⟩
  obtain ⟨log', hperform⟩ := Handler.perform_upload_verdict boundary c batch w log
  exact ⟨_, log', hperform⟩

/-- Two reports, of which the first is named by what would end the form if it stood there as it is. -/
theorem Collector.two_reports_split :
    read? "B" (body "B" "reports[]" [(CrashReport.bare "\r\n--B--\r\n").encode,
        (CrashReport.bare "b").encode] []) =
      some [⟨octets "reports[]", some (octets "report1.json"),
          (CrashReport.bare "\r\n--B--\r\n").encode⟩,
        ⟨octets "reports[]", some (octets "report2.json"), (CrashReport.bare "b").encode⟩] :=
  (split_upload (c := ⟨"http://c.test", .post, .ofList [], 15, "reports[]"⟩)
    (show OneLine "B" by decide) (by decide)
    [.bare "\r\n--B--\r\n", .bare "b"]).1

end CrashCourier
