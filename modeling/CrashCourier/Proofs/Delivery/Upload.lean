import CrashCourier.Delivery.Upload
import CrashCourier.Proofs.Action

/-!
# What an upload sends

What a handler that uploads to a collector has done when it confirms a batch: it has sent one request,
and the collector has accepted it. Nothing else makes it confirm. Whether the reports were in that
request is another matter, and the method alone decides it.

* A method with a body sends the form, and every file is in it (`infix_body`).
* A method without one sends the same request with nothing in it (`content_of_not_hasBody`).
-/

namespace CrashCourier

/-! ## The form -/

namespace Http.Multipart

variable {boundary key : String} {file : Bytes} {files : List Bytes}

theorem exists_filePart_mem (key : String) (h : file ∈ files) (n : Nat) :
    ∃ k, filePart key k file ∈ fileParts key n files := by
  induction files generalizing n with
  | nil => cases h
  | cons first rest ih =>
      rcases List.mem_cons.mp h with heq | hrest
      · rw [heq]
        exact ⟨n, List.mem_cons_self⟩
      · obtain ⟨k, hk⟩ := ih hrest (n + 1)
        exact ⟨k, List.mem_cons_of_mem _ hk⟩

/-- The content of a part is written as it is. -/
theorem infix_write (p : Part) : p.content <:+: p.write boundary := by
  unfold Part.write
  exact List.infix_append _ _ _

/-- Every file is in the form, octet for octet. -/
theorem infix_body {parameters : Json.Members} (h : file ∈ files) :
    file <:+: body boundary key files parameters := by
  obtain ⟨k, hk⟩ := exists_filePart_mem key h 1
  have hpart : filePart key k file ∈ parts key files parameters := List.mem_append_left _ hk
  have hwrite : file <:+: (filePart key k file).write boundary :=
    infix_write (filePart key k file)
  have hparts : (filePart key k file).write boundary <:+:
      (parts key files parameters).flatMap (·.write boundary) := by
    -- a part stands whole in the form
    rw [List.flatMap_def]
    exact List.infix_of_mem_flatten (List.mem_map_of_mem hpart)
  unfold body
  exact List.infix_append_of_infix_left (hwrite.trans hparts)

end Http.Multipart

/-! ## The request -/

namespace Http.Order

variable {boundary : String} {o : Order} {request : Request}

/-- **What a request is made of.** The address can be reached and each configured header can be sent;
what announces the body stands behind the configured headers. -/
theorem request?_eq_ok : o.request? boundary = .ok request ↔
    ∃ url configured, Url.ofText? o.url = some url ∧ url.host.isSome = true ∧
      (o.headers.entries.mapM fun x => header? x.1 x.2) = some configured ∧
      url.isSendable = true ∧
      request = ⟨o.method, url.withoutCredentials,
        withAccept (credentialHeader url ++ configured ++ (o.content boundary).1),
        (o.content boundary).2⟩ := by
  refine ⟨?_, ?_⟩
  · intro h
    unfold request? at h
    cases hurl : Url.ofText? o.url with
    | none =>
        rw [hurl] at h
        cases h
    | some url =>
        simp only [hurl] at h
        by_cases hhost : url.host.isNone = true
        · rw [if_pos hhost] at h
          cases h
        · rw [if_neg hhost] at h
          cases hheaders : o.headers.entries.mapM fun x => header? x.1 x.2 with
          | none =>
              rw [hheaders] at h
              cases h
          | some configured =>
              rw [hheaders] at h
              dsimp only at h
              by_cases hsend : (!url.isSendable) = true
              · rw [if_pos hsend] at h
                cases h
              · rw [if_neg hsend] at h
                refine ⟨url, configured, rfl, ?_, rfl, by simpa using hsend, ?_⟩
                · exact Option.isSome_iff_ne_none.mpr (by simpa using hhost)
                · exact (Except.ok.inj h).symm
  · rintro ⟨url, configured, hurl, hhost, hheaders, hsend, rfl⟩
    have hhost : ¬ url.host.isNone = true := by
      rw [← Option.not_isSome, hhost]
      decide
    have hsend : ¬ (!url.isSendable) = true := by
      rw [hsend]
      decide
    unfold request?
    simp only [hurl, if_neg hhost, hheaders, if_neg hsend]
    rfl

/-- A request has the method that was ordered, and the body that this method has. -/
theorem of_request? (h : o.request? boundary = .ok request) :
    request.method = o.method ∧ request.body = (o.content boundary).2 := by
  obtain ⟨url, configured, _, _, _, _, rfl⟩ := request?_eq_ok.mp h
  exact ⟨rfl, rfl⟩

/-- Whether an order has an address and headers that can be sent. -/
def Sendable (o : Order) : Bool :=
  (Url.ofText? o.url).any (fun url => url.host.isSome && url.isSendable) &&
    (o.headers.entries.mapM fun x => header? x.1 x.2).isSome

/-- An order that can be sent makes a request, whatever it has to send. -/
theorem exists_request_of_sendable (h : o.Sendable = true) :
    ∃ request, o.request? boundary = .ok request := by
  unfold Sendable at h
  rw [Bool.and_eq_true, Option.any_eq_true, Option.isSome_iff_exists] at h
  obtain ⟨⟨url, hurl, hgood⟩, configured, hheaders⟩ := h
  rw [Bool.and_eq_true] at hgood
  exact ⟨_, request?_eq_ok.mpr ⟨url, configured, hurl, hgood.1, hheaders, hgood.2, rfl⟩⟩

/-- An order without a body. -/
theorem content_of_not_hasBody (h : o.method.hasBody = false) : (o.content boundary).2 = [] := by
  unfold content
  rw [h]
  rfl

/-- An order of files for a method with a body. -/
theorem infix_content {a : Attachments} {file : Bytes} (h : o.method.hasBody = true)
    (ha : o.attachments = some a) (hfile : file ∈ a.files) :
    file <:+: (o.content boundary).2 := by
  unfold content
  rw [h, ha]
  exact Multipart.infix_body hfile

/-- An answer that is understood was given, and its status with it. -/
theorem answer_of_understood {reply : Reply} {status : Nat} {body : Bytes} {complete : Bool}
    (h : reply.understood = .answer status body complete) :
    ∃ body complete, reply = .answer status body complete := by
  cases reply with
  | silence => cases h
  | answer given content whole =>
      unfold Reply.understood at h
      dsimp only at h
      by_cases hlost : isInformational given || given < 100 || 999 < given
      · rw [if_pos hlost] at h
        cases h
      · by_cases hbodiless : isBodiless given
        · rw [if_neg hlost, if_pos hbodiless] at h
          injection h with hstatus
          exact ⟨content, whole, by rw [hstatus]⟩
        · rw [if_neg hlost, if_neg hbodiless] at h
          injection h with hstatus
          exact ⟨content, whole, by rw [hstatus]⟩

/-- Whatever the answer says, the request was sent. -/
theorem sent_answered (o : Order) (request : Request) (status : Nat) (body : Bytes)
    (complete : Bool) : (o.answered request status body complete).sent = some request := by
  unfold answered
  by_cases haccepted : 200 ≤ status ∧ status ≤ 299
  · cases complete <;> simp [haccepted]
  · by_cases hrejected : 400 ≤ status ∧ status ≤ 599
    · simp [haccepted, hrejected]
    · simp [haccepted, hrejected]

theorem status_of_answered {request : Request} {status : Nat} {body content : Bytes}
    {complete : Bool}
    (h : (o.answered request status body complete).result = .ok (.delivered content)) :
    200 ≤ status ∧ status ≤ 299 := by
  by_cases haccepted : 200 ≤ status ∧ status ≤ 299
  · exact haccepted
  · unfold answered at h
    by_cases hrejected : 400 ≤ status ∧ status ≤ 599
    · simp only [if_neg haccepted, if_pos hrejected] at h
      cases h
    · simp only [if_neg haccepted, if_neg hrejected] at h
      cases h

/-- An exchange delivers if a request was sent and the answer to it accepts it. -/
theorem of_delivered {collector : Request → Reply} {content : Bytes}
    (h : (o.exchange boundary collector).result = .ok (.delivered content)) :
    ∃ request status body complete, o.request? boundary = .ok request ∧
      (o.exchange boundary collector).sent = some request ∧
      collector request = .answer status body complete ∧ 200 ≤ status ∧ status ≤ 299 := by
  unfold exchange at h ⊢
  cases hr : o.request? boundary with
  | error refusal =>
      rw [hr] at h
      cases h
  | ok request =>
      rw [hr] at h
      dsimp only at h ⊢
      cases hu : (collector request).understood with
      | silence =>
          rw [hu] at h
          cases h
      | answer status body complete =>
          rw [hu] at h
          dsimp only at h ⊢
          obtain ⟨body', complete', hreply⟩ := answer_of_understood hu
          exact ⟨request, status, body', complete', rfl, sent_answered _ _ _ _ _, hreply,
            status_of_answered h⟩

/-- An answer that accepts the request, and whose body does not break off, delivers. -/
theorem exchange_accepted {c : Request → Reply} {status : Nat} {body : Bytes}
    (hmade : o.request? boundary = .ok request)
    (hreply : c request = .answer status body true) (hlow : 200 ≤ status)
    (hhigh : status ≤ 299) :
    (o.exchange boundary c).sent = some request ∧
      ∃ content, (o.exchange boundary c).result = .ok (.delivered content) := by
  -- an accepting status is none that is passed over
  have hclear : ¬ (isInformational status || status < 100 || 999 < status) = true := by
    unfold isInformational
    simp only [Bool.or_eq_true, Bool.and_eq_true, decide_eq_true_eq, not_or, not_and]
    omega
  have hunderstood : ∃ content, (c request).understood = .answer status content true := by
    unfold Reply.understood
    simp only [hreply, if_neg hclear]
    by_cases hbodiless : isBodiless status
    · exact ⟨[], if_pos hbodiless⟩
    · exact ⟨body, if_neg hbodiless⟩
  obtain ⟨content, hunderstood⟩ := hunderstood
  unfold exchange
  simp only [hmade, hunderstood]
  refine ⟨sent_answered _ _ _ _ _, content, ?_⟩
  unfold answered
  simp only [if_pos (And.intro hlow hhigh), if_true]
  rfl

end Http.Order

/-! ## The handler -/

/-- The collector was sent a request and accepted it. -/
def Wire.Accepted (w : Wire) (request : Http.Request) (w' : Wire) : Prop :=
  w' = w.after (some request) ∧
    ∃ status body complete, w.next = .answer status body complete ∧ 200 ≤ status ∧ status ≤ 299

namespace Handler

variable {boundary : String} {c : Collector} {batch : List CrashReport} {w : Wire} {log : Log}

/-- The exchange of a batch, with a collector that answers as it does next. -/
def exchangeOf (boundary : String) (c : Collector) (batch : List CrashReport) (w : Wire) :
    Http.Exchange :=
  (c.order (batch.map CrashReport.encode)).exchange boundary fun _ => w.next

/-- What the handler answers once the exchange is over. -/
def conclude (batch : List CrashReport) (result : Except Http.NetworkError Http.Outcome) :
    Action Wire HandlerFailure (List CrashReport) := do
  match result with
  | .ok (.delivered _) =>
    Action.note .info "Collector accepted crash reports" [("count", toString batch.length)]
    return batch
  | .ok (.ignored status) => throw ⟨batch, .unacknowledged status⟩
  | .error e =>
    Action.note .warn "Collector rejected crash reports"
      [("code", toString e.code), ("error", e.description)]
    throw ⟨batch, .ofNetwork e⟩

theorem perform_upload (boundary : String) (c : Collector) (batch : List CrashReport) (w : Wire)
    (log : Log) : ∃ log',
    (upload boundary c batch).perform w log =
      (conclude batch (exchangeOf boundary c batch w).result).perform
        (w.after (exchangeOf boundary c batch w).sent) log' := by
  unfold upload
  dsimp only
  rw [Action.perform_bind_ok (Action.perform_note _ _ _ _ _),
    Action.perform_bind_ok (Action.perform_get _ _),
    Action.perform_bind_ok (Action.perform_set _ _ _),
    Action.perform_bind_ok (Action.perform_noteAll _ _ _)]
  exact ⟨_, rfl⟩

/-- **A handler that confirms has sent one request, which the collector accepted**, and it confirms
the whole batch. -/
theorem upload_ok {sent : List CrashReport} {w' : Wire} {log' : Log}
    (h : (upload boundary c batch).perform w log = ((.ok sent, w'), log')) :
    sent = batch ∧ ∃ request,
      (c.order (batch.map CrashReport.encode)).request? boundary = .ok request ∧
      w.Accepted request w' := by
  obtain ⟨log₁, hconclude⟩ := perform_upload boundary c batch w log
  rw [hconclude] at h
  cases hresult : (exchangeOf boundary c batch w).result with
  | error e =>
      rw [hresult] at h
      cases h
  | ok outcome =>
      rw [hresult] at h
      cases outcome with
      | ignored status => cases h
      | delivered content =>
          obtain ⟨hr, hw⟩ := Prod.mk.inj (Prod.mk.inj h).1
          obtain ⟨request, status, body, complete, hmade, hsent, hreply, hstatus⟩ :=
            Http.Order.of_delivered hresult
          refine ⟨(Except.ok.inj hr).symm, request, hmade, ?_, status, body, complete, hreply,
            hstatus⟩
          rw [← hw]
          exact congrArg w.after hsent

/-- A handler confirms if the request can be made and the collector accepts it. -/
theorem upload_accepted {request : Http.Request} {status : Nat} {body : Bytes}
    (hmade : (c.order (batch.map CrashReport.encode)).request? boundary = .ok request)
    (hnext : w.next = .answer status body true) (hlow : 200 ≤ status) (hhigh : status ≤ 299) :
    ∃ log', (upload boundary c batch).perform w log = ((.ok batch, w.after (some request)), log') := by
  obtain ⟨log₁, hconclude⟩ := perform_upload boundary c batch w log
  obtain ⟨hsent, content, hresult⟩ := Http.Order.exchange_accepted hmade (c := fun _ => w.next)
    hnext hlow hhigh
  change (exchangeOf boundary c batch w).sent = _ at hsent
  change (exchangeOf boundary c batch w).result = _ at hresult
  rw [hconclude, hresult, hsent]
  exact ⟨_, rfl⟩

end Handler

end CrashCourier
