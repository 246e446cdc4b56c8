import KeyedQuery.Catalog.Row
import KeyedQuery.Database.Basic
import KeyedQuery.Loader.Basic

/-!
# Fetching load batches

What a load checks before it waits, and how the rows of a batch are fetched and told apart.
-/

namespace KeyedQuery

/-- The key a load asks for. -/
inductive LoadKey where
  /-- A key, perhaps among other attributes. -/
  | key (item : Item)
  /-- The value of the partition attribute, for a model that has no sort attribute. -/
  | id (v : Value)

namespace Database

/-- The fault of a key without a value for one of its attributes. -/
def lacksLoadAttribute (model name : String) : Fault :=
  .missingInput ("Key for model '" ++ model ++ "' is missing attribute '" ++ name ++ "'")

/-- The whole key that a load of a model waits for. -/
def loadKey (db : Database) (model : String) (asked : LoadKey) : Except Fault Item := do
  let keys ← db.resolver.primaryKey model
  let _ ← db.resolver.table model
  let attributes := match asked with
    | .key item => item
    | .id v => [(keys.partition, v)]
  (keys.keyOf attributes).mapError (lacksLoadAttribute model)

/-- Rows by the groups of their keys; of two rows with one key the last counts. -/
def rowsByKey (keys : KeySchema) (items : List Item) : Fields Item :=
  Fields.ofList (items.filterMap fun item =>
    (keys.keyOf item).toOption.map fun key => (LoadEntry.idOf key, item))

/-- The rows of a batch. -/
def fetchBatch (db : Database) (batch : LoadBatch) : Run (Fields Item) := do
  let table ← Run.ofExcept (db.resolver.table batch.model)
  let keys ← Run.ofExcept (db.resolver.primaryKey batch.model)
  let items ← db.config.retry.batchGet table (batch.entries.map LoadEntry.key)
  pure (rowsByKey keys items)

/-- Fetch the rows of a batch, and count the batch whether that succeeds or not. -/
def loadBatch (db : Database) (batch : LoadBatch) : Dialogue (Except Fault (Fields Item)) := do
  let result ← (db.fetchBatch batch).run
  Dialogue.count .loaderFlushes 1
  pure result

end Database

end KeyedQuery
