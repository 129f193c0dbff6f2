import CrashCourier.Delivery.Pass
import CrashCourier.Delivery.Upload
import CrashCourier.Store.FileStore
import CrashCourier.Text.Quoted

/-!
# Setting a courier up

A courier is set up for the hosted collector, for a collector of one's own, or with a handler of any
other kind. `fromSettings` sets one up as the settings say, over the store of the monitor's files.
-/

namespace CrashCourier

/-- How reports reach a collector. -/
inductive Setup where
  /-- The hosted collector, for one application of an organization. -/
  | hosted (token bundleName bundleId : String)
  /-- A collector of one's own. -/
  | own (collector : Collector)
  /-- A handler of another kind. -/
  | custom

namespace Setup

/-- The text of a setup in the log, in which the token does not show. -/
def text : Setup → String
  | hosted _ bundleName bundleId =>
    "Default \x7b bundle_name: " ++ Text.quoted bundleName ++ ", bundle_id: " ++
      Text.quoted bundleId ++ ", .. \x7d"
  | own collector => "Api(" ++ Text.quoted collector.url ++ ")"
  | custom => "Custom"

/-- Notes that a courier is set up. -/
def announce {σ ε : Type} (s : Setup) : Action σ ε Unit :=
  Action.note .info "Setting up crash reporter" [("setup", s.text)]

end Setup

/-- Why no courier can be set up as the settings say. -/
inductive SetupFault where
  /-- The settings cannot be used. -/
  | settings (problems : List Problem)
  /-- The store cannot be prepared. -/
  | store (fault : StoreFault)

namespace SetupFault

/-- What has failed. -/
def message : SetupFault → String
  | settings problems => "Invalid configuration: " ++ "; ".intercalate (problems.map Problem.text)
  | store _ => "Failed to install report store"

/-- What has failed, and why. -/
def chain : SetupFault → String
  | settings problems => (settings problems).message
  | store fault => (store fault).message ++ ": " ++ fault.chain

end SetupFault

/-- Prepares the store of files as the settings say and gives the setup for their collector. -/
def Settings.setUp (s : Settings) : Action FileStore SetupFault Setup := do
  if !s.problems.isEmpty then throw (.settings s.problems)
  (FileStore.install s.store.bundleId s.store.basePath).mapFault .store
  let setup := Setup.own s.collector
  setup.announce
  return setup

/-- The courier over the store of files that uploads to a collector. -/
def Courier.uploading (boundary : String) (c : Collector) (doctor : Doctor) :
    Courier FileStore Wire :=
  ⟨.files, .upload boundary c, doctor⟩

end CrashCourier
