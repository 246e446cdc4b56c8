import KeyedQuery.Query.Document
import KeyedQuery.Store.Request

/-!
# Requests and writes as values

How requests, writes and answers are written down. Every request is a map with one field, which
names its kind; the field of a page request leaves out what scans do not have.
-/

namespace KeyedQuery

namespace Value

/-- A row, or null for none. -/
def ofItem? (item : Option Item) : Value :=
  .ofOption (item.map .map)

/-- A list of rows. -/
def ofItems (items : List Item) : Value :=
  .list (items.map .map)

/-- A map with one field. -/
def tagged (name : String) (fields : List (String × Value)) : Value :=
  .map [(name, .map (Fields.ofList fields))]

end Value

/-- The placeholder tables as two fields. -/
def Attributes.toFields (a : Attributes) : List (String × Value) :=
  [("names", .map (Fields.mapValues .str a.names)), ("values", .map a.values)]

/-- A page request as a value. -/
def PageRequest.toValue (p : PageRequest) : Value :=
  let shared : List (String × Value) :=
    [("table", .str p.table), ("filter", .ofText? p.filter), ("limit", .ofSize? p.limit),
      ("start", .ofItem? p.start), ("count_only", .bool p.countOnly)] ++ p.attributes.toFields
  match p.access with
  | .scan => .tagged "scan" shared
  | .query index keyCondition forward =>
    .tagged "query" (shared ++
      [("index", .ofText? index), ("key", .str keyCondition), ("reverse", .bool !forward)])

/-- A write as a value. -/
def Write.toValue : Write → Value
  | .put table item => .tagged "put" [("table", .str table), ("item", .map item)]
  | .update table key expression attributes =>
    .tagged "update" ([("table", .str table), ("key", .map key),
      ("expression", .str expression)] ++ attributes.toFields)
  | .delete table key => .tagged "delete" [("table", .str table), ("key", .map key)]

/-- A request as a value. The token of a transaction is left out. -/
def Request.toValue : Request → Value
  | .page p => p.toValue
  | .batchGet table keys =>
    .tagged "batch_get" [("table", .str table), ("keys", .ofItems keys)]
  | .transact writes _ => .map [("transact_write", .list (writes.map Write.toValue))]
  | .put table item => (Write.put table item).toValue
  | .update table key expression attributes returnUpdated =>
    .tagged "update" ([("table", .str table), ("key", .map key),
      ("expression", .str expression), ("return_updated", .bool returnUpdated)] ++
      attributes.toFields)
  | .delete table key => (Write.delete table key).toValue

/-- A page as a value. -/
def Page.toValue (p : Page) : Value :=
  .map (Fields.ofList
    [("items", .ofItems p.items), ("count", .ofNat p.count),
      ("last_evaluated_key", .ofItem? p.last)])

/-- The answer to a batch get as a value. -/
def BatchAnswer.toValue (a : BatchAnswer) : Value :=
  .map (Fields.ofList
    [("items", .ofItems a.items), ("unprocessed_keys", .ofItems a.unprocessed)])

end KeyedQuery
