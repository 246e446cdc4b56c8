import KeyedQuery.Query.Basic
import KeyedQuery.Document.Reader
import KeyedQuery.Document.Record

/-!
# Query documents

Queries as JSON: reading one with its defaults, and writing one with all fields.
-/

namespace KeyedQuery

/-! ## Reading -/

/-- The value of a condition stands this deep in a query. -/
def Condition.depth : Nat := 3

open Document in
/-- The condition of a document; its value has to be there, if only as null. -/
def Condition.ofDocument? (d : Document) : Option Condition := do
  match ← d.slots? ["field", "operator", "value", "connector"] with
  | [field, operator, value, connector] =>
    some
      { field := ← required text? field
        operator := ← optional text? operator
        value := ← required (toValue? (maxDepth - depth)) value
        connector := ← optional text? connector }
  | _ => none

open Document in
/-- The sort of a document. -/
def SortSpec.ofDocument? (d : Document) : Option SortSpec := do
  match ← d.slots? ["field", "direction"] with
  | [field, direction] =>
    some
      { field := ← required text? field
        direction := ← defaulted .asc (constant? [("asc", .asc), ("desc", .desc)]) direction }
  | _ => none

open Document in
/-- The join of a document. -/
def JoinEdge.ofDocument? (d : Document) : Option JoinEdge := do
  match ← d.slots? ["target_model", "relation", "local_field", "foreign_field", "limit",
      "alias"] with
  | [target, relation, localField, foreignField, limit, label] =>
    some
      { targetModel := ← required text? target
        relation := ← required
          (constant? [("one_to_one", .oneToOne), ("one_to_many", .oneToMany)]) relation
        localField := ← required text? localField
        foreignField := ← required text? foreignField
        limit := ← optional size? limit
        label := ← optional text? label }
  | _ => none

open Document in
/-- The query of a document. -/
def FindQuery.ofDocument? (d : Document) : Option FindQuery := do
  match ← d.slots? ["model", "where", "sort", "limit", "offset", "select", "joins"] with
  | [model, conditions, sort, limit, offset, select, joins] =>
    some
      { model := ← required text? model
        conditions := ← defaulted [] (listOf? Condition.ofDocument?) conditions
        sort := ← optional SortSpec.ofDocument? sort
        limit := ← optional size? limit
        offset := ← optional size? offset
        select := ← optional (listOf? text?) select
        joins := ← defaulted [] (listOf? JoinEdge.ofDocument?) joins }
  | _ => none

/-- Read a query from a text. -/
def FindQuery.read? (text : String) : Option FindQuery :=
  (Document.read? text).bind ofDocument?

/-! ## Writing -/

/-- A text or null. -/
def Value.ofText? (s : Option String) : Value :=
  .ofOption (s.map .str)

/-- A size or null. -/
def Value.ofSize? (n : Option Nat) : Value :=
  .ofOption (n.map .ofNat)

/-- A list of texts. -/
def Value.ofTexts (texts : List String) : Value :=
  .list (texts.map .str)

/-- A condition as a value. -/
def Condition.toValue (c : Condition) : Value :=
  .map (Fields.ofList
    [("field", .str c.field), ("operator", .ofText? c.operator), ("value", c.value),
      ("connector", .ofText? c.connector)])

/-- A normalized condition as a value. -/
def NormalizedCondition.toValue (c : NormalizedCondition) : Value :=
  .map (Fields.ofList
    [("field", .str c.field), ("operator", .str c.operator.name), ("value", c.value),
      ("connector", .str c.connector.text), ("requires_client_filter", .bool c.clientOnly)])

/-- A sort as a value. -/
def SortSpec.toValue (s : SortSpec) : Value :=
  .map (Fields.ofList [("field", .str s.field), ("direction", .str s.direction.text)])

/-- A join as a value. -/
def JoinEdge.toValue (j : JoinEdge) : Value :=
  .map (Fields.ofList
    [("target_model", .str j.targetModel), ("relation", .str j.relation.text),
      ("local_field", .str j.localField), ("foreign_field", .str j.foreignField),
      ("limit", .ofSize? j.limit), ("alias", .ofText? j.label)])

/-- A query as a value. -/
def FindQuery.toValue (q : FindQuery) : Value :=
  .map (Fields.ofList
    [("model", .str q.model), ("where", .list (q.conditions.map Condition.toValue)),
      ("sort", .ofOption (q.sort.map SortSpec.toValue)), ("limit", .ofSize? q.limit),
      ("offset", .ofSize? q.offset), ("select", .ofOption (q.select.map Value.ofTexts)),
      ("joins", .list (q.joins.map JoinEdge.toValue))])

end KeyedQuery
