import KeyedQuery.Store.Table
import KeyedQuery.Value.Text

/-!
# The store in memory

`Memory` is a store that keeps its tables in memory, with failures that can be scripted.
`Memory.receive` is its answer to a request and the store after it. A transaction is carried out
write by write on a copy, so that none of its writes shows if one of them fails.
-/

namespace KeyedQuery

/-- The kinds of requests for which failures are scripted. -/
inductive RequestKind where
  | query | scan | batchGet | transaction | write
deriving DecidableEq

/-- The kind of a request. -/
def Request.kind : Request → RequestKind
  | .page p =>
    match p.access with
    | .scan => .scan
    | .query _ _ _ => .query
  | .batchGet _ _ => .batchGet
  | .transact _ _ => .transaction
  | .put _ _ | .update _ _ _ _ _ | .delete _ _ => .write

/-- Tables in memory, and what has been scripted for the next requests. -/
structure Memory where
  /-- The tables by name. -/
  tables : Fields Table := []
  /-- The failures to come, in order. -/
  failures : List (RequestKind × StoreFault) := []
  /-- The next batch gets that leave all their keys unprocessed. -/
  unprocessedRounds : Nat := 0
  /-- The most rows that a page looks at. -/
  pageSize : Option Nat := none
deriving DecidableEq

namespace Memory

/-! ## Set-up -/

/-- Make a table, or give a table new keys and indexes and let it keep its rows. Of several
indexes with one name the last counts. -/
def createTable (m : Memory) (name : String) (keys : KeySchema)
    (indexes : List (String × KeySchema)) : Memory :=
  let items := ((Fields.get? m.tables name).map Table.items).getD []
  { m with tables := Fields.insert m.tables name ⟨keys, Fields.ofList indexes, items⟩ }

/-- The tables of all models of a schema, without rows. -/
def ofSchema (s : Schema) (pageSize : Option Nat) : Memory :=
  s.definitions.foldl
    (fun m d =>
      m.createTable d.table d.primaryKey (d.indexes.map fun index => (index.name, index.keys)))
    { pageSize := pageSize.map fun n => max n 1 }

/-- Store rows of a table; values that are no rows and unknown tables are skipped. -/
def seed (m : Memory) (table : String) (values : List Value) : Memory :=
  match Fields.get? m.tables table with
  | some t =>
    let filled := values.foldl
      (fun t v => match v with | .map item => Table.upsert t item | _ => t) t
    { m with tables := Fields.insert m.tables table filled }
  | none => m

/-- The rows of a table; none of an unknown one. -/
def items (m : Memory) (table : String) : List Item :=
  ((Fields.get? m.tables table).map Table.items).getD []

/-- Fail the next request of a kind. -/
def failNext (m : Memory) (kind : RequestKind) (fault : StoreFault) : Memory :=
  { m with failures := m.failures ++ [(kind, fault)] }

/-- Let the next batch gets leave all their keys unprocessed. -/
def leaveUnprocessed (m : Memory) (rounds : Nat) : Memory :=
  { m with unprocessedRounds := rounds }

/-! ## Requests -/

/-- The words for a table that does not exist. -/
def missingTable (table : String) : String :=
  "Table '" ++ table ++ "' not found"

/-- A table, or the store's complaint that there is none. -/
def table (m : Memory) (name : String) : Except StoreFault Table :=
  match Fields.get? m.tables name with
  | some t => .ok t
  | none => .error (.service "ResourceNotFoundException" (missingTable name))

/-- Replace a table. -/
def withTable (m : Memory) (name : String) (t : Table) : Memory :=
  { m with tables := Fields.insert m.tables name t }

/-- The rows of some keys. -/
def batchGet (m : Memory) (table : String) (keys : List Item) :
    Except StoreFault BatchAnswer × Memory :=
  if maxBatchKeys < keys.length then
    (.error (.service ExpressionFault.validationCode
      ("Too many keys: " ++ toString keys.length)), m)
  else
    match m.unprocessedRounds with
    | rounds + 1 => (.ok ⟨[], keys⟩, { m with unprocessedRounds := rounds })
    | 0 => ((m.table table).map fun t => ⟨keys.filterMap t.find?, []⟩, m)

/-- What tells the rows of a transaction apart: the table and the key attributes, as they are
grouped. -/
abbrev RowIdentity := String × List String

/-- The identity of the row that a write is to. -/
def identity (t : Table) (w : Write) : RowIdentity :=
  (w.table, (t.keyOf w.row).map fun field => field.2.groupKey)

/-- Carry out a write on its table. -/
def applyWrite (t : Table) : Write → Except StoreFault Table
  | .put _ item => .ok (t.upsert item)
  | .update _ key expression attributes =>
    match t.update key expression attributes with
    | .ok (_, t) => .ok t
    | .error fault => .error (.canceled fault.toStoreFault.message)
  | .delete _ key => .ok (t.remove key)

/-- Carry out one write of a transaction behind others that wrote the given rows. -/
def transactOne (state : Fields Table × List RowIdentity) (w : Write) :
    Except StoreFault (Fields Table × List RowIdentity) := do
  let (tables, touched) := state
  match Fields.get? tables w.table with
  | none => .error (.canceled (missingTable w.table))
  | some t =>
    if identity t w ∈ touched then
      .error (.service ExpressionFault.validationCode
        "Transaction request cannot include multiple operations on one item")
    else
      let written ← applyWrite t w
      .ok (Fields.insert tables w.table written, identity t w :: touched)

/-- The tables after all writes of a transaction. -/
def transact (m : Memory) (writes : List Write) : Except StoreFault Memory :=
  if maxTransactionWrites < writes.length then
    .error (.service ExpressionFault.validationCode
      ("Too many transaction items: " ++ toString writes.length))
  else
    (writes.foldlM transactOne (m.tables, [])).map fun (tables, _) => { m with tables }

/-- The store after a change that may fail, with the answer. -/
def commit {α : Type} (m : Memory) (change : Except StoreFault (α × Memory)) :
    Except StoreFault α × Memory :=
  match change with
  | .ok (a, changed) => (.ok a, changed)
  | .error fault => (.error fault, m)

/-- The answer to a request that is not made to fail. -/
def perform (m : Memory) : (r : Request) → Except StoreFault r.Answer × Memory
  | .page p => ((m.table p.table).bind fun t => t.page m.pageSize p, m)
  | .batchGet table keys => m.batchGet table keys
  | .transact writes _ => m.commit ((m.transact writes).map fun changed => ((), changed))
  | .put table item =>
    m.commit ((m.table table).map fun t => ((), m.withTable table (t.upsert item)))
  | .update table key expression attributes returnUpdated =>
    m.commit do
      let t ← m.table table
      let (item, t) ← (t.update key expression attributes).mapError ExpressionFault.toStoreFault
      .ok (if returnUpdated then some item else none, m.withTable table t)
  | .delete table key =>
    m.commit ((m.table table).map fun t => ((), m.withTable table (t.remove key)))

/-- The next failure scripted for a kind, and the store without it. -/
def takeFailure? (m : Memory) (kind : RequestKind) : Option (StoreFault × Memory) :=
  (m.failures.findIdx? fun f => f.1 = kind).bind fun i =>
    m.failures[i]?.map fun f => (f.2, { m with failures := m.failures.eraseIdx i })

/-- The answer to a request, and the store after it. -/
def receive (r : Request) (m : Memory) : Except StoreFault r.Answer × Memory :=
  match m.takeFailure? r.kind with
  | some (fault, m) => (.error fault, m)
  | none => m.perform r

end Memory

end KeyedQuery
