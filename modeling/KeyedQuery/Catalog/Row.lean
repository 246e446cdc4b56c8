import KeyedQuery.Catalog.Basic
import KeyedQuery.Value.Basic

/-!
# Rows of a model

How a row of a model looks in its table: under physical names, with a value for every key
attribute. A patch is put over a row without touching its key.
-/

namespace KeyedQuery

/-- A row with the physical names of its fields. -/
def Resolver.physicalItem (r : Resolver) (model : String) (data : Item) : Item :=
  Fields.ofList (data.map fun (field, v) => (r.fieldName model field, v))

namespace KeySchema

/-- The values of key attributes in a row; the first attribute without one is reported. -/
def valuesOf (item : Item) : List String → Except String (List (String × Value))
  | [] => .ok []
  | a :: rest =>
    match (Fields.get? item a).filter fun v => !v.isNull with
    | some v => (valuesOf item rest).map fun more => (a, v) :: more
    | none => .error a

/-- The key of a row. The first key attribute that is absent or null is reported. -/
def keyOf (k : KeySchema) (item : Item) : Except String Item :=
  (valuesOf item k.attributes).map Fields.ofList

/-- A row with a patch put over it, as far as the patch is not about the key. -/
def patched (k : KeySchema) (item patch : Item) : Item :=
  Fields.merge item (patch.filter fun field => field.1 ∉ k.attributes)

end KeySchema

end KeyedQuery
