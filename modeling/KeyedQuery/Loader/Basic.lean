import KeyedQuery.Fault
import KeyedQuery.Value.Text

/-!
# Loaders

A `Loader` gathers single loads into batches. A load is registered under its model and its key
and becomes a waiter. Dispatching a model takes everything that is pending for it as one batch,
which is then in flight; completing a batch gives each of its waiters an outcome, the same one to
all waiters of a key. A batch lists every key once, in the order in which the keys came.
-/

namespace KeyedQuery

/-- What a load ends with: a row, none, or a fault. -/
abbrev LoadOutcome := Except Fault (Option Item)

/-- A key and the loads that wait for its row. -/
structure LoadEntry where
  /-- The group of the key. -/
  id : String
  /-- The key. -/
  key : Item
  /-- The loads, in the order in which they came. -/
  waiters : List Nat
deriving DecidableEq

/-- Keys of one model that are fetched together. -/
structure LoadBatch where
  /-- The model. -/
  model : String
  /-- The keys with their waiters. -/
  entries : List LoadEntry
deriving DecidableEq

/-- Loads on their way to the store and back. -/
structure Loader where
  /-- What waits to be dispatched, by model. -/
  pending : Fields (List LoadEntry) := []
  /-- The batches that have been dispatched and not yet completed. -/
  inFlight : List LoadBatch := []
  /-- The outcomes of loads, in the order in which they became known. -/
  outcomes : List (Nat × LoadOutcome) := []

namespace LoadEntry

/-- The group by which loads of one key are recognised. -/
def idOf (key : Item) : String :=
  (Value.map key).groupKey

/-- Add a waiter for a key: to the key's entry, or to a new one behind the others. -/
def addWaiter (waiter : Nat) (key : Item) : List LoadEntry → List LoadEntry
  | [] => [⟨idOf key, key, [waiter]⟩]
  | e :: rest =>
    if e.id = idOf key then { e with waiters := e.waiters ++ [waiter] } :: rest
    else e :: addWaiter waiter key rest

end LoadEntry

namespace Loader

/-- What is pending for a model. -/
def pendingFor (l : Loader) (model : String) : List LoadEntry :=
  (Fields.get? l.pending model).getD []

/-- Let a load wait for the row of a key. -/
def register (l : Loader) (model : String) (waiter : Nat) (key : Item) : Loader :=
  let entries := LoadEntry.addWaiter waiter key (l.pendingFor model)
  { l with pending := Fields.insert l.pending model entries }

/-- Take everything that is pending for a model as one batch; nothing if there is nothing. -/
def dispatch? (l : Loader) (model : String) : Option (LoadBatch × Loader) :=
  (Fields.get? l.pending model).map fun entries =>
    (⟨model, entries⟩,
      { l with
        pending := Fields.erase l.pending model
        inFlight := l.inFlight ++ [⟨model, entries⟩] })

/-- The outcomes that a result gives to the waiters of a batch. The result has rows by the groups
of their keys. -/
def outcomesOf (batch : LoadBatch) (result : Except Fault (Fields Item)) :
    List (Nat × LoadOutcome) :=
  batch.entries.flatMap fun e =>
    e.waiters.map fun waiter => (waiter, result.map fun found => Fields.get? found e.id)

/-- Give the waiters of a batch in flight their outcomes. -/
def complete (l : Loader) (batch : LoadBatch) (result : Except Fault (Fields Item)) : Loader :=
  { l with
    inFlight := l.inFlight.erase batch
    outcomes := l.outcomes ++ outcomesOf batch result }

/-- End a load with a fault before it waits for anything. -/
def refuse (l : Loader) (waiter : Nat) (fault : Fault) : Loader :=
  { l with outcomes := l.outcomes ++ [(waiter, .error fault)] }

/-- The outcome of a load, as soon as it is known. -/
def outcome? (l : Loader) (waiter : Nat) : Option LoadOutcome :=
  l.outcomes.lookup waiter

/-- The number of keys that wait to be dispatched. -/
def pendingKeys (l : Loader) : Nat :=
  l.pending.foldl (fun n field => n + field.2.length) 0

end Loader

end KeyedQuery
