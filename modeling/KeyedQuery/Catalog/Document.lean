import KeyedQuery.Catalog.Basic
import KeyedQuery.Document.Reader
import KeyedQuery.Document.Record

/-!
# Catalog documents

Model definitions as JSON: reading a list of them, and writing them with all fields. An index
definition carries its key attributes beside its name, and since they are read together, what
else stands in it has to be readable too.
-/

namespace KeyedQuery

/-! ## Reading -/

open Document in
/-- The key attributes of a document. -/
def KeySchema.ofDocument? (d : Document) : Option KeySchema := do
  match ← d.slots? ["partition_key", "sort_key"] with
  | [partition, sort] =>
    some { partition := ← required text? partition, sort := ← optional text? sort }
  | _ => none

/-- An index definition stands this deep in a list of models. -/
def IndexDef.depth : Nat := 4

open Document in
/-- The index definition of a document, which has to be a map. -/
def IndexDef.ofDocument? (d : Document) : Option IndexDef := do
  match d with
  | .map fields =>
    let _ ← toFields? (maxDepth - depth) fields
    match ← d.slots? ["name", "partition_key", "sort_key"] with
    | [name, partition, sort] =>
      some
        { name := ← required text? name
          keys := { partition := ← required text? partition, sort := ← optional text? sort } }
    | _ => none
  | _ => none

open Document in
/-- The renamed fields of a document. -/
def ModelDef.renames? : Document → Option (Fields String)
  | .map fields => do
    let pairs ← fields.mapM fun (name, d) => do some (← name, ← d.text?)
    some (Fields.ofList pairs)
  | _ => none

open Document in
/-- The model definition of a document. -/
def ModelDef.ofDocument? (d : Document) : Option ModelDef := do
  match ← d.slots? ["name", "table", "primary_key", "fields", "indexes"] with
  | [name, table, key, fields, indexes] =>
    some
      { name := ← required text? name
        table := ← required text? table
        primaryKey := ← required KeySchema.ofDocument? key
        fields := ← defaulted [] renames? fields
        indexes := ← defaulted [] (listOf? IndexDef.ofDocument?) indexes }
  | _ => none

/-- The schema of a document: a list of model definitions. -/
def Schema.ofDocument (d : Document) : Except Fault Schema :=
  match Document.listOf? ModelDef.ofDocument? d with
  | some models => .ok (ofModels models)
  | none => .error (.invalidConfig "Malformed schema")

/-- Read a schema from a text. -/
def Schema.read (text : String) : Except Fault Schema :=
  match Document.read? text with
  | some d => ofDocument d
  | none => .error (.invalidConfig "Malformed schema")

/-! ## Writing -/

/-- Key attributes as fields. -/
def KeySchema.toFields (k : KeySchema) : List (String × Value) :=
  [("partition_key", .str k.partition), ("sort_key", .ofOption (k.sort.map .str))]

/-- Key attributes as a value. -/
def KeySchema.toValue (k : KeySchema) : Value :=
  .map (Fields.ofList k.toFields)

/-- An index definition as a value. -/
def IndexDef.toValue (i : IndexDef) : Value :=
  .map (Fields.ofList (("name", .str i.name) :: i.keys.toFields))

/-- A model definition as a value. -/
def ModelDef.toValue (m : ModelDef) : Value :=
  .map (Fields.ofList
    [("name", .str m.name), ("table", .str m.table), ("primary_key", m.primaryKey.toValue),
      ("fields", .map (Fields.mapValues .str m.fields)),
      ("indexes", .list (m.indexes.map IndexDef.toValue))])

/-- A schema as a value. -/
def Schema.toValue (s : Schema) : Value :=
  .map (Fields.ofList [("models", .map (Fields.mapValues ModelDef.toValue s.models))])

end KeyedQuery
