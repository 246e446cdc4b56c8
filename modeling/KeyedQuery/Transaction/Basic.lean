import KeyedQuery.Database.Writes
import KeyedQuery.Transaction.Buffer

/-!
# Transactions

A `Transaction` buffers writes by model until they are committed together. Its reads see the rows
that it wrote before, and it keeps one write a row: a later write to a row is folded into the
one that is already buffered. An update of a stored row is written as the difference to the row
as it was first read, however often it is changed.

Reads and updates may ask the store; creating and deleting do not. Updates and deletes have to
fix the whole key of the row. What fails leaves the transaction as it was.
-/

namespace KeyedQuery

/-- A stored row for which an update is buffered. -/
structure StagedUpdate where
  /-- The table of the row. -/
  table : String
  /-- The row as it was read. -/
  current : Item
  /-- The row as it will be. -/
  next : Item
deriving DecidableEq

/-- Writes by model that wait to be committed. -/
structure Transaction where
  /-- The writes. -/
  buffer : WriteBuffer := {}
  /-- The rows with a buffered update, by row identifier. -/
  updates : Fields StagedUpdate := []
deriving DecidableEq

namespace Transaction

/-- The identifier of a row: its table and the groups of its key attributes. -/
def rowId (table : String) (key : Item) : String :=
  table ++ "/" ++ "/".intercalate (key.map fun field => field.2.groupKey)

/-- The values that required equalities give to key attributes. -/
def keyValues? (conditions : List NormalizedCondition) :
    List String → Option (List (String × Value))
  | [] => some []
  | a :: rest => do
    let c ← conditions.find? fun c => c.field = a ∧ c.isKeyEquality ∧ ¬c.value.isNull
    let more ← keyValues? conditions rest
    some ((a, c.value) :: more)

/-- The key that conditions fix. -/
def keyOfConditions (model : String) (keys : KeySchema)
    (conditions : List NormalizedCondition) : Except Fault Item :=
  match keyValues? conditions keys.attributes with
  | some values => .ok (Fields.ofList values)
  | none => .error (.missingKeyCondition model)

/-- The row that a write by model is to. -/
structure Target where
  table : String
  keys : KeySchema
  conditions : List NormalizedCondition
  key : Item

/-- The row that conditions on a model fix. -/
def target (db : Database) (model : String) (conditions : List Condition) :
    Except Fault Target := do
  let table ← db.resolver.table model
  let keys ← db.resolver.primaryKey model
  let conditions ← normalizeAll db.resolver model conditions
  let key ← keyOfConditions model keys conditions
  .ok { table, keys, conditions, key }

/-- The identifier of the target row. -/
def Target.id (t : Target) : String :=
  rowId t.table t.key

/-! ## Reading -/

/-- The row of a buffered update that satisfies conditions. -/
def updatedRow? (tx : Transaction) (table : String) (conditions : List NormalizedCondition) :
    Option Item :=
  tx.updates.findSome? fun (_, u) =>
    if u.table = table ∧ matchesAll conditions u.next then some u.next else none

/-- The row of the transaction's own that satisfies conditions: one that it put, or else one that
it updates. -/
def ownRow? (tx : Transaction) (table : String) (conditions : List NormalizedCondition) :
    Except Fault (Option Item) := do
  match ← tx.buffer.search table conditions with
  | some row => .ok (some row)
  | none => .ok (tx.updatedRow? table conditions)

/-- A row of the store as the transaction sees it: not at all if a buffered write drops it, or
changes it so that it no longer qualifies. -/
def seenRow? (tx : Transaction) (table : String) (key row : Item) :
    Except Fault (Option Item) := do
  match ← tx.buffer.pending table key with
  | some (.delete _ _) | some (.update _ _ _ _) => .ok none
  | some (.put _ _) | none => .ok (some row)

/-- The first row of a query: one of the transaction's own, or else one of the store. -/
def findOne (db : Database) (tx : Transaction) (q : FindQuery) : Run (Option Item) := do
  let table ← Run.ofExcept (db.resolver.table q.model)
  let conditions ← Run.ofExcept (normalizeAll db.resolver q.model q.conditions)
  match ← Run.ofExcept (tx.ownRow? table conditions) with
  | some row => pure (some row)
  | none =>
    match ← db.findOne q with
    | none => pure none
    | some row =>
      let keys ← Run.ofExcept (db.resolver.primaryKey q.model)
      let key ← Run.ofExcept (Database.rowKey q.model keys row)
      Run.ofExcept (tx.seenRow? table key row)

/-! ## Writing -/

/-- Buffer a new row of a model, and return it as it will be stored. -/
def create (db : Database) (tx : Transaction) (model : String) (data : Item) :
    Except Fault (Item × Transaction) := do
  let (table, key, item) ← db.newRow model data
  let buffer ← tx.buffer.stage (.put table item) key
  .ok (item, { buffer, updates := Fields.erase tx.updates (rowId table key) })

/-- Buffer the update of the target row from the row as it was read to the row as it will be. -/
def stageUpdate (tx : Transaction) (t : Target) (current next : Item) :
    Except Fault (Option Item × Transaction) := do
  let change ← Database.patchBetween current next
  let write := Write.update t.table t.key change.expression change.attributes
  let buffer ← tx.buffer.stage write t.key
  .ok (some next,
    { buffer, updates := Fields.insert tx.updates t.id ⟨t.table, current, next⟩ })

/-- Change a row that the transaction itself puts. -/
def changePut (db : Database) (tx : Transaction) (model : String) (t : Target)
    (item patch : Item) : Except Fault (Option Item × Transaction) :=
  if matchesAll t.conditions item then do
    let next := db.patchedRow model t.keys item patch
    let buffer ← tx.buffer.stage (.put t.table next) t.key
    .ok (some next, { tx with buffer })
  else
    .ok (none, tx)

/-- Change a row that the transaction already updates. -/
def extendUpdate (db : Database) (tx : Transaction) (model : String) (t : Target)
    (staged : StagedUpdate) (patch : Item) : Except Fault (Option Item × Transaction) :=
  if matchesAll t.conditions staged.next then
    tx.stageUpdate t staged.current (db.patchedRow model t.keys staged.next patch)
  else
    .ok (none, tx)

/-- Put a patch over the row that the conditions fix, and return the row as it will be; none if
there is no such row. -/
def update (db : Database) (tx : Transaction) (model : String) (conditions : List Condition)
    (patch : Item) : Run (Option Item × Transaction) := do
  let t ← Run.ofExcept (target db model conditions)
  match ← Run.ofExcept (tx.buffer.pending t.table t.key) with
  | some (.put _ item) => Run.ofExcept (tx.changePut db model t item patch)
  | some (.delete _ _) => pure (none, tx)
  | some (.update _ _ _ _) | none =>
    match Fields.get? tx.updates t.id with
    | some staged => Run.ofExcept (tx.extendUpdate db model t staged patch)
    | none =>
      match ← db.findOne { model, conditions } with
      | none => pure (none, tx)
      | some current =>
        Run.ofExcept
          (tx.stageUpdate t current (db.patchedRow model t.keys current patch))

/-- Buffer that the row that the conditions fix is dropped. -/
def delete (db : Database) (tx : Transaction) (model : String) (conditions : List Condition) :
    Except Fault Transaction := do
  let t ← target db model conditions
  let buffer ← tx.buffer.stage (.delete t.table t.key) t.key
  .ok { buffer, updates := Fields.erase tx.updates t.id }

/-! ## Closing -/

/-- Send all writes as one transaction of the store. -/
def commit (db : Database) (token : String) (tx : Transaction) : Run Unit :=
  ExceptT.mk (Prod.fst <$> tx.buffer.commit db.config.retry token)

/-- Drop all writes. -/
def abort (tx : Transaction) : Except Fault Unit :=
  tx.buffer.abort.map fun _ => ()

end Transaction

end KeyedQuery
