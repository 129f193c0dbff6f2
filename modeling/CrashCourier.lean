import CrashCourier.Delivery.Setup
import CrashCourier.Settings.File
import CrashCourier.Settings.YamlText
import CrashCourier.Proofs.Delivery.Retention
import CrashCourier.Store.Memory
import CrashCourier.Proofs.Delivery.Confirmation
import CrashCourier.Proofs.Json.Reader
import CrashCourier.Proofs.Json.Text
import CrashCourier.Proofs.Json.Members
import CrashCourier.Proofs.Json.Numeral
import CrashCourier.Proofs.Json.Tree
import CrashCourier.Proofs.Json.Settled
import CrashCourier.Proofs.Json.Written
import CrashCourier.Proofs.Json.Shape
import CrashCourier.Proofs.Json.Document
import CrashCourier.Proofs.Report.Roundtrip
import CrashCourier.Proofs.Files.Disk
import CrashCourier.Proofs.Store.Files
import CrashCourier.Proofs.Delivery.Upload
import CrashCourier.Proofs.Delivery.Receipt
import CrashCourier.Proofs.Json.Controls
import CrashCourier.Proofs.Http.Multipart
import CrashCourier.Proofs.Delivery.Split
import CrashCourier.Proofs.Json.Normal
import CrashCourier.Proofs.Json.Reread
import CrashCourier.Proofs.Binary64
import CrashCourier.Proofs.Report.Preserved
import CrashCourier.Proofs.Files.Tree
import CrashCourier.Proofs.Store.Shelf
import CrashCourier.Proofs.Store.Refinement
import CrashCourier.Proofs.Store.Listing
import CrashCourier.Proofs.Store.Clearing
import CrashCourier.Proofs.Store.Isolation
import CrashCourier.Proofs.Delivery.Effect
import CrashCourier.Proofs.Delivery.Recording
import CrashCourier.Proofs.Delivery.Retry
import CrashCourier.Proofs.Delivery.Recovery
import CrashCourier.Proofs.Json.Grammar
import CrashCourier.Proofs.Json.Gathered
import CrashCourier.Proofs.Json.Schema
import CrashCourier.Proofs.Report.Accepted
import CrashCourier.Proofs.Report.Diagnosis
import CrashCourier.Proofs.Report.Diagnosed
import CrashCourier.Proofs.Json.PrefixFree
import CrashCourier.Proofs.Delivery.Torn
import CrashCourier.Proofs.Http.Form
import CrashCourier.Proofs.Http.Announcement
import CrashCourier.Proofs.Decimal.Interval
import CrashCourier.Proofs.Decimal.Shortest
import CrashCourier.Proofs.Decimal.Reading
import CrashCourier.Proofs.Decimal.Exact
import CrashCourier.Proofs.Json.Reals
import CrashCourier.Proofs.Json.Echo
import CrashCourier.Proofs.Report.Times
import CrashCourier.Proofs.Text.Hex
import CrashCourier.Proofs.Text.Lossy
import CrashCourier.Proofs.Http.Message
import CrashCourier.Proofs.Json.Token
import CrashCourier.Proofs.Json.Alike
import CrashCourier.Proofs.Json.Draft
import CrashCourier.Proofs.Json.Spaced
import CrashCourier.Proofs.Report.Rearranged
import CrashCourier.Proofs.Json.Taken
import CrashCourier.Proofs.Json.Ignored
import CrashCourier.Proofs.Settings.Collector
