import CrashCourier.Proofs.Delivery.Upload
import CrashCourier.Proofs.Http.Form

/-!
# What announces a body

A request with a body says in a header what the body is, a form with its boundary or JSON. That header
is added behind the configured ones and replaces none of them (`contentTypes_eq`). The last type is
always the right one; whether it is the only one is up to the configured names. Names of headers do
not distinguish upper and lower case when they are sent, while the configured names do, so a type can
be configured in many spellings, and every one of them counts.
-/

namespace CrashCourier.Http

variable {boundary : String} {o : Order} {request : Request}

/-- The values of the headers of a name, in the order in which they are sent. -/
def headerValues (name : String) (headers : List Header) : List String :=
  (headers.filter (·.1 == name)).map (·.2)

/-- What the headers of a request say that its body is. -/
def Request.contentTypes (r : Request) : List String :=
  headerValues "content-type" r.headers

/-- The type is that of the body: a form comes with the boundary that stands between its parts. -/
def Request.Describes (r : Request) (o : Order) (type : String) : Prop :=
  match o.attachments with
  | some a => ∃ boundary, Multipart.announced? type = some boundary ∧
      r.body = Multipart.body boundary a.key a.files (o.parameters.getD [])
  | none => type = "application/json"

/-- The request says one thing of its body, and that is right. -/
def Request.Announces (r : Request) (o : Order) : Prop :=
  ∃ type, r.contentTypes = [type] ∧ r.Describes o type

/-! ## Headers of a name -/

theorem headerValues_append (name : String) (hs hs' : List Header) :
    headerValues name (hs ++ hs') = headerValues name hs ++ headerValues name hs' := by
  rw [headerValues, List.filter_append, List.map_append]
  rfl

/-- What is accepted is another matter than what is sent. -/
theorem headerValues_withAccept {name : String} (hne : name ≠ "accept") (hs : List Header) :
    headerValues name (Order.withAccept hs) = headerValues name hs := by
  unfold Order.withAccept
  split
  · rfl
  · have hother : headerValues name [("accept", "*/*")] = [] := by
      have hbeq : ("accept" == name) = false := beq_eq_false_iff_ne.mpr (Ne.symm hne)
      simp only [headerValues, List.filter_cons, hbeq, Bool.false_eq_true, if_false, List.filter_nil,
        List.map_nil]
    rw [headerValues_append, hother, List.append_nil]

theorem headerValues_credentialHeader (url : Url) :
    headerValues "content-type" (Order.credentialHeader url) = [] := by
  unfold Order.credentialHeader
  split
  · rfl
  · rfl

theorem eq_of_header? {name value : String} {h : Header} (hmade : header? name value = some h) :
    h = (lowered name, value) := by
  unfold header? at hmade
  split at hmade
  · exact (Option.some.inj hmade).symm
  · cases hmade

/-- The types that are configured, in whatever spelling of the name. -/
def Order.configuredTypes (o : Order) : List String :=
  (o.headers.entries.filter (lowered ·.1 == "content-type")).map (·.2)

/-- Configured headers are sent with their names in lower case, in their order. -/
theorem headerValues_configured {entries : List (String × String)} {configured : List Header}
    (h : (entries.mapM fun x => header? x.1 x.2) = some configured) (name : String) :
    headerValues name configured = (entries.filter (lowered ·.1 == name)).map (·.2) := by
  induction entries generalizing configured with
  | nil =>
      cases h
      rfl
  | cons entry entries ih =>
      rw [List.mapM_cons] at h
      obtain ⟨first, hfirst, h⟩ := Option.bind_eq_some_iff.mp h
      obtain ⟨rest, hrest, h⟩ := Option.bind_eq_some_iff.mp h
      obtain rfl : first :: rest = configured := Option.some.inj h
      obtain rfl := eq_of_header? hfirst
      have htail := ih hrest
      unfold headerValues at htail ⊢
      rw [List.filter_cons, List.filter_cons]
      by_cases hname : (lowered entry.1 == name) = true
      · rw [if_pos hname, if_pos hname, List.map_cons, List.map_cons, htail]
      · rw [if_neg hname, if_neg hname, htail]

/-! ## The request -/

namespace Order

/-- What the body of an order is announced as. -/
def announcement (boundary : String) (o : Order) : String :=
  match o.attachments with
  | some _ => Multipart.contentType boundary
  | none => jsonType

theorem headerValues_content (boundary : String) (hbody : o.method.hasBody = true) :
    headerValues "content-type" (o.content boundary).1 = [o.announcement boundary] := by
  unfold content announcement
  rw [hbody]
  cases o.attachments with
  | some a => rfl
  | none => rfl

/-- **The types of a request**: those that are configured, and behind them its own. -/
theorem contentTypes_eq (hbody : o.method.hasBody = true) (h : o.request? boundary = .ok request) :
    request.contentTypes = o.configuredTypes ++ [o.announcement boundary] := by
  obtain ⟨url, configured, _, _, hheaders, _, rfl⟩ := request?_eq_ok.mp h
  have hcontent := headerValues_content boundary hbody
  unfold Request.contentTypes
  rw [headerValues_withAccept (by decide), headerValues_append, headerValues_append,
    headerValues_credentialHeader, headerValues_configured hheaders, hcontent]
  rfl

/-- What an order is announced as is what its body is. -/
theorem describes_announcement (hbody : o.method.hasBody = true)
    (h : o.request? boundary = .ok request) : request.Describes o (o.announcement boundary) := by
  have hsent := (of_request? h).2
  unfold content at hsent
  unfold Request.Describes announcement
  rw [hbody] at hsent
  cases hattachments : o.attachments with
  | some a =>
      rw [hattachments] at hsent
      exact ⟨boundary, Multipart.announced?_contentType boundary, hsent⟩
  | none => rfl

theorem configuredTypes_eq_nil :
    o.configuredTypes = [] ↔ ∀ e ∈ o.headers.entries, lowered e.1 ≠ "content-type" := by
  unfold configuredTypes
  rw [List.map_eq_nil_iff, List.filter_eq_nil_iff]
  refine forall₂_congr fun e _ => ?_
  rw [beq_iff_eq]

/--
**A request with a body announces it unambiguously if and only if no configured header is named
`Content-Type`**, in capitals or not. It then has one such header, whose value is the form with the
boundary that stands between the parts of the body, or JSON if there are no files.
-/
theorem announces_iff (hbody : o.method.hasBody = true) (h : o.request? boundary = .ok request) :
    request.Announces o ↔ ∀ e ∈ o.headers.entries, lowered e.1 ≠ "content-type" := by
  have htypes := contentTypes_eq hbody h
  rw [← configuredTypes_eq_nil]
  refine ⟨?_, ?_⟩
  · intro hannounces
    obtain ⟨type, hone, _⟩ := hannounces
    -- its own type is one already
    have hlength := congrArg List.length (htypes.symm.trans hone)
    rw [List.length_append, List.length_singleton, List.length_singleton] at hlength
    exact List.eq_nil_of_length_eq_zero (by omega)
  · intro hnone
    refine ⟨o.announcement boundary, ?_, describes_announcement hbody h⟩
    rw [htypes, hnone, List.nil_append]

/-- One file for a collector, with some configured headers. -/
def oneFile (headers : Table String) : Order :=
  ⟨.post, "http://collector.test/api/v1/reports", headers, none, some ⟨"reports[]", [octets "x"]⟩⟩

theorem exists_request_oneFile (headers : Table String)
    (hheaders : (headers.entries.mapM fun x => header? x.1 x.2).isSome = true) :
    ∃ request, (oneFile headers).request? "b" = .ok request := by
  have hurl : (Url.ofText? "http://collector.test/api/v1/reports").any
      (fun url => url.host.isSome && url.isSendable) = true := by
    decide +kernel
  refine exists_request_of_sendable ?_
  unfold Sendable
  rw [Bool.and_eq_true]
  exact ⟨hurl, hheaders⟩

/-- With a token among the configured headers, the form is announced once. -/
theorem token_announced_once :
    ∃ request, (oneFile (Table.empty.insert "X-Token" "t")).request? "b" = .ok request ∧
      request.Announces (oneFile (Table.empty.insert "X-Token" "t")) := by
  obtain ⟨request, hmade⟩ :=
    exists_request_oneFile (Table.empty.insert "X-Token" "t") (by decide)
  exact ⟨request, hmade, (announces_iff rfl hmade).mpr (by decide)⟩

/-- A configured `Content-Type` is sent in front of that of the form, and the request has two. -/
theorem configured_type_announced_twice :
    ∃ request, (oneFile (Table.empty.insert "Content-Type" "text/plain")).request? "b" =
        .ok request ∧
      request.contentTypes = ["text/plain", "multipart/form-data; boundary=b"] ∧
      ¬ request.Announces (oneFile (Table.empty.insert "Content-Type" "text/plain")) := by
  obtain ⟨request, hmade⟩ :=
    exists_request_oneFile (Table.empty.insert "Content-Type" "text/plain") (by decide)
  have htypes : request.contentTypes = ["text/plain", "multipart/form-data; boundary=b"] :=
    contentTypes_eq rfl hmade
  refine ⟨request, hmade, htypes, ?_⟩
  intro hannounces
  obtain ⟨type, hone, _⟩ := hannounces
  rw [htypes] at hone
  cases hone

end Order

end CrashCourier.Http
