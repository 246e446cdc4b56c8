import KeyedQuery.Catalog.Row
import KeyedQuery.Database.Basic
import KeyedQuery.Patch

/-!
# Writes by model

`Database.create` stores a row, `Database.update` changes the first row that satisfies some
conditions by the differences to the patched row, and `Database.delete` drops every row that
satisfies some conditions. Each accepted write is counted.
-/

namespace KeyedQuery

namespace Database

/-- The fault of a row without a value for a key attribute. -/
def lacksKeyAttribute (model name : String) : Fault :=
  .missingInput
    ("Row of model '" ++ model ++ "' has no value for key attribute '" ++ name ++ "'")

/-- The key of a row of a model. -/
def rowKey (model : String) (keys : KeySchema) (item : Item) : Except Fault Item :=
  (keys.keyOf item).mapError (lacksKeyAttribute model)

/-- A row with a patch in logical names put over it. -/
def patchedRow (db : Database) (model : String) (keys : KeySchema) (item patch : Item) : Item :=
  keys.patched item (db.resolver.physicalItem model patch)

/-- The patch that turns a row into another, or the fault of having none. -/
def patchBetween (prev next : Item) : Except Fault Patch :=
  (Patch.between prev next).mapError PatchFault.toFault

/-- Send a write and count it when it is accepted. -/
def write (db : Database) (r : Request) : Run r.Answer := do
  let answer ← db.request r
  Run.count .writes 1
  pure answer

/-- Where a new row of a model goes: its table, and the row as it is stored. -/
def newRow (db : Database) (model : String) (data : Item) :
    Except Fault (String × Item × Item) := do
  let table ← db.resolver.table model
  let item := db.resolver.physicalItem model data
  let keys ← db.resolver.primaryKey model
  let key ← rowKey model keys item
  .ok (table, key, item)

/-- Store a row of a model, and return it as it is stored. -/
def create (db : Database) (model : String) (data : Item) : Run Item := do
  let (table, _, item) ← Run.ofExcept (db.newRow model data)
  let _ ← db.write (.put table item)
  pure item

/-- Put a patch over the first row of a model that satisfies the conditions, and return the row
after it; none if no row does. -/
def update (db : Database) (model : String) (conditions : List Condition) (patch : Item) :
    Run (Option Item) := do
  match ← db.findOne { model, conditions } with
  | none => pure none
  | some current =>
    let table ← Run.ofExcept (db.resolver.table model)
    let keys ← Run.ofExcept (db.resolver.primaryKey model)
    let key ← Run.ofExcept (rowKey model keys current)
    let next := db.patchedRow model keys current patch
    let change ← Run.ofExcept (patchBetween current next)
    let updated : Option Item ←
      db.write (.update table key change.expression change.attributes true)
    pure (some (updated.getD next))

/-- Drop rows of a model one by one. -/
def deleteRows (db : Database) (model table : String) (keys : KeySchema) :
    List Item → Run Unit
  | [] => pure ()
  | row :: rest => do
    let key ← Run.ofExcept (rowKey model keys row)
    db.write (.delete table key)
    db.deleteRows model table keys rest

/-- Drop every row of a model that satisfies the conditions, and return how many there were. -/
def delete (db : Database) (model : String) (conditions : List Condition) : Run Nat := do
  let rows ← db.findMany { model, conditions }
  let table ← Run.ofExcept (db.resolver.table model)
  let keys ← Run.ofExcept (db.resolver.primaryKey model)
  db.deleteRows model table keys rows
  pure rows.length

end Database

end KeyedQuery
