import CrashCourier.Delivery.Handler
import CrashCourier.Http.Exchange
import CrashCourier.Settings.Basic

/-!
# Uploading to a collector

The usual handler sends a batch in one request, every report as a file of one form.
-/

namespace CrashCourier

/-- A collector as a handler meets it: the requests that it has seen, and its replies. -/
structure Wire where
  seen : List Http.Request
  /-- Replies to the next requests, one for each. -/
  replies : List Http.Reply
  /-- The reply to every request after those. -/
  usual : Http.Reply

/-- The reply to the next request. -/
def Wire.next (w : Wire) : Http.Reply :=
  w.replies.head?.getD w.usual

/-- The collector after a request. -/
def Wire.after (w : Wire) (sent : Option Http.Request) : Wire :=
  match sent with
  | none => w
  | some request => { w with seen := w.seen ++ [request], replies := w.replies.tail }

/-- A request that has gone wrong, as a handler tells of it. -/
def HandlerError.ofNetwork (e : Http.NetworkError) : HandlerError :=
  .transport e.code e.description

/-- The order that uploads files to a collector. -/
def Collector.order (c : Collector) (files : List Bytes) : Http.Order where
  method := c.method
  url := c.url
  headers := c.headers
  parameters := none
  attachments := some ⟨c.attachmentKey, files⟩

/-- The handler that uploads to a collector. `boundary` stands between the parts of a form. -/
def Handler.upload (boundary : String) (c : Collector) : Handler Wire := fun batch => do
  let files := batch.map CrashReport.encode
  Action.note .debug "Uploading crash reports"
    [("reports", toString batch.length), ("files", toString files.length), ("url", c.url)]
  let w ← get
  let exchange := (c.order files).exchange boundary fun _ => w.next
  set (w.after exchange.sent)
  Action.noteAll exchange.log
  match exchange.result with
  | .ok (.delivered _) =>
    Action.note .info "Collector accepted crash reports" [("count", toString batch.length)]
    return batch
  | .ok (.ignored status) => throw ⟨batch, .unacknowledged status⟩
  | .error e =>
    Action.note .warn "Collector rejected crash reports"
      [("code", toString e.code), ("error", e.description)]
    throw ⟨batch, .ofNetwork e⟩

end CrashCourier
