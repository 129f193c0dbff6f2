import CrashCourier.Action
import CrashCourier.Files.Disk

/-!
# Report stores

A store holds the records that the monitor has written, each under a number. What the delivery of
reports needs of it is to list the numbers, to read a record and to erase it.
-/

namespace CrashCourier

/-- What is done with a file. -/
inductive FileWork where
  | create
  | list
  | read
  | delete
  deriving DecidableEq

/-- The word for what is done with a file. -/
def FileWork.name : FileWork → String
  | create => "create"
  | list => "list"
  | read => "read"
  | delete => "delete"

/-- Why a store fails. -/
inductive StoreFault where
  /-- The store has not been told yet where it is. -/
  | notInstalled
  /-- A file or a directory of the store cannot be worked with. -/
  | file (work : FileWork) (path : String) (fault : Files.Fault)
  /-- The store says so itself. -/
  | told (message : String)
  deriving DecidableEq

namespace StoreFault

/-- What has failed. -/
def message : StoreFault → String
  | notInstalled => "Report store used before install"
  | file work path _ => "Failed to " ++ work.name ++ " " ++ path
  | told message => message

/-- What has failed, and why. -/
def chain : StoreFault → String
  | file work path fault => (file work path fault).message ++ ": " ++ fault.message
  | fault => fault.message

end StoreFault

/-- What a store does, on states of type `σ`. -/
structure ReportStore (σ : Type) where
  /-- Prepares the store for the reports of a bundle under a directory. -/
  install : (bundleId basePath : String) → Action σ StoreFault Unit
  /-- How many records there are. -/
  count : Action σ StoreFault Nat
  /-- The numbers of the records. -/
  ids : Action σ StoreFault (List Int64)
  /-- The record of a number, unless there is none any more. -/
  read : (id : Int64) → Action σ StoreFault (Option Bytes)
  /-- Erases a record; nothing happens if there is none. -/
  delete : (id : Int64) → Action σ StoreFault Unit
  /-- Erases all records. -/
  deleteAll : Action σ StoreFault Unit

end CrashCourier
