import KeyedQuery.Fetch.Retry
import KeyedQuery.Query.Evaluation

/-!
# Write buffers

A `WriteBuffer` collects writes for one transaction of the store. It takes writes as long as it is
active, at most as many as a transaction may hold. A write can be staged for a row, in place of
the one already buffered for that row. `WriteBuffer.commit` sends all of them at once; after it,
and after `WriteBuffer.abort`, the buffer refuses every call.
-/

namespace KeyedQuery

/-- The stages in the life of a write buffer. -/
inductive WriteBuffer.Status where
  /-- It takes writes. -/
  | active
  /-- The store has carried the writes out. -/
  | committed
  /-- The writes were dropped, or the store refused them. -/
  | aborted
deriving DecidableEq

/-- Writes that wait to be sent together. -/
structure WriteBuffer where
  /-- The writes in order. -/
  writes : List Write := []
  /-- The stage of the buffer. -/
  status : WriteBuffer.Status := .active
deriving DecidableEq

/-- The position of the last element that satisfies a test. -/
def lastPosition? {α : Type} (p : α → Bool) : List α → Option Nat
  | [] => none
  | x :: rest =>
    match lastPosition? p rest with
    | some i => some (i + 1)
    | none => if p x then some 0 else none

namespace WriteBuffer

/-- The buffer still takes calls. -/
def requireActive (b : WriteBuffer) : Except Fault Unit :=
  if b.status = .active then .ok () else .error .transactionClosed

/-- Put a write behind the others. A full buffer refuses it. -/
def add (b : WriteBuffer) (w : Write) : Except Fault WriteBuffer := do
  b.requireActive
  if maxTransactionWrites ≤ b.writes.length then
    .error (.transactionLimit maxTransactionWrites)
  else
    .ok { b with writes := b.writes ++ [w] }

/-- The position of the last write to the row of a key. -/
def position? (b : WriteBuffer) (table : String) (key : Item) : Option Nat :=
  lastPosition? (fun w => w.table = table ∧ w.targets key) b.writes

/-- The last write to the row of a key. -/
def pending (b : WriteBuffer) (table : String) (key : Item) : Except Fault (Option Write) := do
  b.requireActive
  .ok ((b.position? table key).bind fun i => b.writes[i]?)

/-- Make a write the one to the row of a key: in place of the write to it, if there is one, or
behind the others. -/
def stage (b : WriteBuffer) (w : Write) (key : Item) : Except Fault WriteBuffer := do
  b.requireActive
  match b.position? w.table key with
  | some i => .ok { b with writes := b.writes.set i w }
  | none => b.add w

/-- The row that a write puts into a table, if it satisfies conditions. -/
def putRow? (table : String) (conditions : List NormalizedCondition) : Write → Option Item
  | .put t item => if t = table ∧ matchesAll conditions item then some item else none
  | .update _ _ _ _ | .delete _ _ => none

/-- The row last put into a table among those that satisfy conditions. -/
def search (b : WriteBuffer) (table : String) (conditions : List NormalizedCondition) :
    Except Fault (Option Item) := do
  b.requireActive
  .ok (b.writes.reverse.findSome? (putRow? table conditions))

/-- Drop the writes and close the buffer. -/
def abort (b : WriteBuffer) : Except Fault WriteBuffer := do
  b.requireActive
  .ok ⟨[], .aborted⟩

/-- Send the writes as one transaction and close the buffer. Without writes nothing is sent. Each
repetition carries the same token. -/
def commit (retry : RetryConfig) (token : String) (b : WriteBuffer) :
    Dialogue (Except Fault Unit × WriteBuffer) :=
  match b.requireActive with
  | .error fault => pure (.error fault, b)
  | .ok () =>
    if b.writes.isEmpty then
      pure (.ok (), { b with status := .committed })
    else do
      match ← (retry.request (.transact b.writes token)).run with
      | .ok _ =>
        Dialogue.count .transactionsCommitted 1
        pure (.ok (), ⟨[], .committed⟩)
      | .error fault => pure (.error fault, ⟨[], .aborted⟩)

end WriteBuffer

end KeyedQuery
