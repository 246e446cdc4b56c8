import KeyedQuery.Catalog.Basic
import KeyedQuery.Expression.Update
import KeyedQuery.Grouping
import KeyedQuery.StableSort
import KeyedQuery.Store.Request

/-!
# Tables in memory

A `Table` holds rows in the order in which they were first stored. A row is found by its key
attributes; storing a row with the key of another replaces that one in place. `Table.page` is one
page of a query or a scan: the rows that qualify are put in order, the page covers as many of
them as its budget allows, and the filter is applied to those.
-/

namespace KeyedQuery

/-- Rows under a primary key, with secondary indexes. -/
structure Table where
  /-- The key attributes of the rows. -/
  keys : KeySchema
  /-- The key attributes of the indexes, by index name. -/
  indexes : Fields KeySchema := []
  /-- The rows in storage order. -/
  items : List Item := []
deriving DecidableEq

namespace Table

/-- The key attributes that a row has. -/
def keyOf (t : Table) (item : Item) : Item :=
  Fields.ofList (t.keys.attributes.filterMap fun a => (Fields.get? item a).map fun v => (a, v))

/-- The position of the first row with a key. -/
def position (t : Table) (key : Item) : Option Nat :=
  t.items.findIdx? fun item => item.hasKey key

/-- The first row with a key. -/
def find? (t : Table) (key : Item) : Option Item :=
  t.items.find? fun item => item.hasKey key

/-- Store a row, in place of the one with its key if there is one. -/
def upsert (t : Table) (item : Item) : Table :=
  match t.position (t.keyOf item) with
  | some i => { t with items := t.items.set i item }
  | none => { t with items := t.items ++ [item] }

/-- Drop the first row with a key. -/
def remove (t : Table) (key : Item) : Table :=
  match t.position key with
  | some i => { t with items := t.items.eraseIdx i }
  | none => t

/-- Change the row of a key, or make one of the key, by an update text. -/
def update (t : Table) (key : Item) (expression : String) (attributes : Attributes) :
    Checked (Item × Table) := do
  let item ← Item.update attributes expression ((t.find? key).getD key)
  .ok (item, t.upsert item)

/-! ## Pages -/

/-- The order of two rows by a sort attribute; rows without comparable values are not ordered. -/
def sortsBefore (field : String) (a b : Item) : Bool :=
  match Fields.get? a field, Fields.get? b field with
  | some v, some w => v.compare? w = some .lt
  | _, _ => false

/-- The sort attribute of the table or of one of its indexes. -/
def sortAttribute (t : Table) : Option String → Except StoreFault (Option String)
  | none => .ok t.keys.sort
  | some index =>
    match Fields.get? t.indexes index with
    | some keys => .ok keys.sort
    | none =>
      .error (.service ExpressionFault.validationCode ("Index '" ++ index ++ "' not found"))

/-- A parsed condition, or the store's complaint about its text. -/
def condition (attributes : Attributes) (text : String) : Except StoreFault Predicate :=
  (Predicate.parse attributes text).mapError ExpressionFault.toStoreFault

/-- The rows that qualify for a request, in the order in which its pages yield them. -/
def candidates (t : Table) (p : PageRequest) : Except StoreFault (List Item) :=
  match p.access with
  | .scan => .ok t.items
  | .query index keyCondition forward => do
    let sort ← t.sortAttribute index
    let key ← condition p.attributes keyCondition
    let matching := t.items.filter key.holds
    let sorted := match sort with
      | some field => stableSort (sortsBefore field) matching
      | none => matching
    .ok (if forward then sorted else sorted.reverse)

/-- The candidates behind a start key; none if no candidate has it. -/
def behind (t : Table) (start : Option Item) (items : List Item) : List Item :=
  match start with
  | none => items
  | some key =>
    (items.dropWhile fun item => !Value.sameFields (t.keyOf item) (t.keyOf key)).tail

/-- The rows that a page may look at, by its own limit and the store's page size. -/
def budget (limit pageSize : Option Nat) : Option Nat :=
  match limit, pageSize with
  | some l, some s => some (min l s)
  | some l, none => some l
  | none, s => s

/-- One page of a request. -/
def page (t : Table) (pageSize : Option Nat) (p : PageRequest) : Except StoreFault Page := do
  let candidates ← t.candidates p
  let passes ← match p.filter with
    | some text => (condition p.attributes text).map fun f item => f.holds item
    | none => .ok fun _ => true
  let remaining := t.behind p.start candidates
  let covered := takeAtMost (budget p.limit pageSize) remaining
  let matching := covered.filter passes
  .ok
    { items := if p.countOnly then [] else matching
      count := matching.length
      last :=
        if covered.length < remaining.length then covered.getLast?.map t.keyOf else none }

end Table

end KeyedQuery
