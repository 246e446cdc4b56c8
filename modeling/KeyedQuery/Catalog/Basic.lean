import KeyedQuery.Fault
import KeyedQuery.Fields

/-!
# Catalog

How logical models lie on physical tables: the table behind a model, its key attributes, its
secondary indexes, and renamed fields. A `Schema` is a fixed set of model definitions; a
`Resolver` is the view of one that planning and execution consult. Field names in key schemas
and indexes are physical names.
-/

namespace KeyedQuery

/-- The key attributes of a table or an index. -/
structure KeySchema where
  /-- The attribute that places a row in a partition. -/
  partition : String
  /-- The attribute that orders the rows of a partition, if there is one. -/
  sort : Option String := none
deriving DecidableEq

namespace KeySchema

/-- The key has no sort attribute. -/
def isSimple (k : KeySchema) : Bool :=
  k.sort.isNone

/-- The key attributes, the partition attribute first. -/
def attributes (k : KeySchema) : List String :=
  k.partition :: k.sort.toList

end KeySchema

/-- A secondary index. -/
structure IndexDef where
  /-- The name by which the store knows the index. -/
  name : String
  /-- The key attributes of the index. -/
  keys : KeySchema
deriving DecidableEq

/-- The layout of one model. -/
structure ModelDef where
  /-- The logical name. -/
  name : String
  /-- The physical table. -/
  table : String
  /-- The key attributes of the table. -/
  primaryKey : KeySchema
  /-- Physical names of renamed fields, by logical name. -/
  fields : Fields String := []
  /-- The secondary indexes of the table. -/
  indexes : List IndexDef := []
deriving DecidableEq

/-- A fixed set of model definitions, by model name. -/
structure Schema where
  /-- The definitions in ascending order of the model names. -/
  models : Fields ModelDef := []
deriving DecidableEq

/-- The view of a catalog that planning and execution consult. -/
structure Resolver where
  /-- The table behind a model. -/
  table : String → Except Fault String
  /-- The key attributes of a model's table. -/
  primaryKey : String → Except Fault KeySchema
  /-- The physical name of a model's logical field. -/
  fieldName : String → String → String
  /-- An index of a model with the given partition attribute. -/
  indexName : String → String → Option String
  /-- The key attributes of a model's index. -/
  indexKeys : String → String → Option KeySchema

namespace Schema

/-- Add a definition, replacing one of the same name. -/
def withModel (s : Schema) (m : ModelDef) : Schema :=
  ⟨Fields.insert s.models m.name m⟩

/-- The schema of a list of definitions; a later one replaces an earlier one of its name. -/
def ofModels (models : List ModelDef) : Schema :=
  models.foldl withModel {}

/-- The definition of a model. -/
def model? (s : Schema) (model : String) : Option ModelDef :=
  Fields.get? s.models model

/-- The definitions in ascending order of their names. -/
def definitions (s : Schema) : List ModelDef :=
  s.models.map Prod.snd

/-- The view of a schema. Of several indexes on one attribute or of one name the first counts. -/
def resolver (s : Schema) : Resolver where
  table model :=
    match s.model? model with
    | some m => .ok m.table
    | none => .error (.missingTable model)
  primaryKey model :=
    match s.model? model with
    | some m => .ok m.primaryKey
    | none => .error (.missingPrimaryKey model)
  fieldName model field :=
    ((s.model? model).bind fun m => Fields.get? m.fields field).getD field
  indexName model field := do
    let m ← s.model? model
    let index ← m.indexes.find? fun index => index.keys.partition = field
    some index.name
  indexKeys model name := do
    let m ← s.model? model
    let index ← m.indexes.find? fun index => index.name = name
    some index.keys

end Schema

namespace Resolver

/-- The view in which some models show no primary key and some indexes no key attributes. -/
def concealing (r : Resolver) (models indexes : List String) : Resolver :=
  { r with
    primaryKey := fun model =>
      if model ∈ models then .error (.missingPrimaryKey model) else r.primaryKey model
    indexKeys := fun model name =>
      if name ∈ indexes then none else r.indexKeys model name }

end Resolver

end KeyedQuery
