import CrashCourier.Store.Basic

/-!
# Stores in memory

A store in memory serves to try out the delivery of reports: its records can be listed in any order,
and any of its calls can be made to fail.
-/

namespace CrashCourier

inductive StoreCall where
  | install
  | count
  | ids
  | read
  | delete
  | deleteAll
  deriving DecidableEq

/-- A call that is to fail. -/
structure PlannedFault where
  call : StoreCall
  /-- The record that the call has to be about; `none` for any call of the kind. -/
  id : Option Int64
  message : String

def PlannedFault.meets (call : StoreCall) (id : Option Int64) (f : PlannedFault) : Bool :=
  f.call == call && (f.id.isNone || f.id == id)

structure MemoryStore where
  /-- The records, their numbers ascending. -/
  records : List (Int64 × Bytes)
  /-- The numbers that have been erased one by one, in order. -/
  deleted : List Int64
  /-- The numbers to list in place of those there are. -/
  order : Option (List Int64)
  faults : List PlannedFault

namespace MemoryStore

abbrev Work := Action MemoryStore StoreFault

/-- A store without records. -/
def empty : MemoryStore := ⟨[], [], none, []⟩

/-- The records with one added in its place, or in the place of the one of its number. -/
def insert (id : Int64) (record : Bytes) : List (Int64 × Bytes) → List (Int64 × Bytes)
  | [] => [(id, record)]
  | (i, r) :: rest =>
    if id < i then (id, record) :: (i, r) :: rest
    else if id = i then (id, record) :: rest
    else (i, r) :: insert id record rest

def put (s : MemoryStore) (id : Int64) (record : Bytes) : MemoryStore :=
  { s with records := insert id record s.records }

/-- The numbers of the records, ascending. -/
def stored (s : MemoryStore) : List Int64 :=
  s.records.map (·.1)

def listed (s : MemoryStore) : List Int64 :=
  s.order.getD s.stored

/-- Fails if that is planned; of several faults the first counts. -/
def check (call : StoreCall) (id : Option Int64) : Work Unit := do
  match (← get).faults.find? (PlannedFault.meets call id) with
  | some f => throw (.told f.message)
  | none => return ()

/-- Erases a record. -/
def delete (id : Int64) : Work Unit := do
  check .delete (some id)
  modify fun s =>
    { s with records := s.records.filter (·.1 ≠ id), deleted := s.deleted ++ [id] }

end MemoryStore

def ReportStore.memory : ReportStore MemoryStore where
  install _ _ := MemoryStore.check .install none
  count := do
    MemoryStore.check .count none
    return (← get).records.length
  ids := do
    MemoryStore.check .ids none
    return (← get).listed
  read id := do
    MemoryStore.check .read (some id)
    return (← get).records.lookup id
  delete := MemoryStore.delete
  deleteAll := do
    MemoryStore.check .deleteAll none
    modify fun s => { s with records := [] }

end CrashCourier
