import KeyedQuery.Catalog.Basic
import KeyedQuery.Query.Evaluation

/-!
# Access strategies

How the rows that satisfy some conditions are reached, best way first:

1. an equality on the partition attribute of the table;
2. an equality on an indexed attribute, preferably with one on the index's sort attribute;
3. a membership on an indexed attribute, one query for each distinct value;
4. a membership on the partition attribute of a table without sort attribute, one batch get;
5. anything else, a scan.

Only required conditions count. An equality with null fixes neither the partition attribute of the
table nor a sort attribute, but it does fix the partition attribute of an index.
-/

namespace KeyedQuery

/-- A way to reach rows. -/
inductive Strategy where
  | primaryKeyQuery
  | secondaryIndexQuery (index : String)
  | multiQuery (index field : String)
  | batchGet
  | scan
deriving DecidableEq

/-- The conditions that fix a key. -/
structure KeyMatch where
  /-- The index whose key is fixed; none for the table's own. -/
  index : Option String
  /-- The key attributes. -/
  keys : KeySchema
  /-- The position of the equality on the partition attribute. -/
  partition : Nat
  /-- The position of the equality on the sort attribute, if there is one. -/
  sort : Option Nat
  /-- How many key attributes are fixed. -/
  score : Nat
deriving DecidableEq

namespace Strategy

/-- The kind of a strategy as it is written. -/
def kind : Strategy → String
  | .primaryKeyQuery => "primary_key_query"
  | .secondaryIndexQuery _ => "secondary_index_query"
  | .multiQuery _ _ => "multi_query"
  | .batchGet => "batch_get"
  | .scan => "scan"

/-- A strategy for one join value, adapted to several: on a table without sort attribute they
are fetched in one batch. -/
def forValues (values : Nat) (key : KeySchema) : Strategy → Strategy
  | .primaryKeyQuery => if 1 < values ∧ key.isSimple then .batchGet else .primaryKeyQuery
  | s => s

end Strategy

namespace KeyMatch

/-- The position of the first required equality on a field with a value other than null. -/
def findEquality (conditions : List NormalizedCondition) (field : String) : Option Nat :=
  conditions.findIdx? fun c => c.isKeyEquality ∧ c.field = field ∧ ¬c.value.isNull

/-- The match of a key whose partition equality is at a position. -/
def ofPartition (conditions : List NormalizedCondition) (index : Option String)
    (keys : KeySchema) (partition : Nat) : KeyMatch :=
  let sort := keys.sort.bind (findEquality conditions)
  ⟨index, keys, partition, sort, if sort.isSome then 2 else 1⟩

/-- The match of an index whose partition attribute the condition at a position fixes. -/
def ofIndex? (r : Resolver) (model : String) (conditions : List NormalizedCondition)
    (position : Nat) (c : NormalizedCondition) : Option KeyMatch :=
  if c.isKeyEquality then
    (r.indexName model c.field).map fun index =>
      let keys := (r.indexKeys model index).getD { partition := c.field }
      ofPartition conditions (some index) keys position
  else
    none

/-- The better of two matches; the first if they are equally good. -/
def better (best : Option KeyMatch) (m : KeyMatch) : Option KeyMatch :=
  match best with
  | some b => if b.score < m.score then some m else some b
  | none => some m

/-- The best match of a key: the table's own before any index, and of the indexes the first of
those that fix the most attributes. -/
def find (r : Resolver) (model : String) (conditions : List NormalizedCondition) :
    Except Fault (Option KeyMatch) := do
  let keys ← r.primaryKey model
  match findEquality conditions keys.partition with
  | some position => .ok (some (ofPartition conditions none keys position))
  | none =>
    let matched := (conditions.mapIdx (ofIndex? r model conditions)).filterMap id
    .ok (matched.foldl better none)

/-- The strategy that uses a match. -/
def strategy (m : KeyMatch) : Strategy :=
  match m.index with
  | none => .primaryKeyQuery
  | some index => .secondaryIndexQuery index

end KeyMatch

namespace Strategy

/-- The strategy for conditions that fix no key. -/
def ofMemberships (r : Resolver) (model : String) (conditions : List NormalizedCondition) :
    Except Fault Strategy := do
  let memberships := conditions.filter NormalizedCondition.isKeyMembership
  let indexed := memberships.findSome? fun c =>
    (r.indexName model c.field).map fun index => Strategy.multiQuery index c.field
  match indexed with
  | some s => .ok s
  | none =>
    let keys ← r.primaryKey model
    if keys.isSimple ∧ memberships.any (fun c => c.field = keys.partition) then
      .ok .batchGet
    else
      .ok .scan

/-- The strategy for conditions. -/
def ofConditions (r : Resolver) (model : String) (conditions : List NormalizedCondition) :
    Except Fault Strategy := do
  match ← KeyMatch.find r model conditions with
  | some m => .ok m.strategy
  | none => ofMemberships r model conditions

/-- The strategy to look one value of a field up. -/
def ofField (r : Resolver) (model field : String) : Except Fault Strategy := do
  let keys ← r.primaryKey model
  if keys.partition = field then
    .ok .primaryKeyQuery
  else
    match r.indexName model field with
    | some index => .ok (.secondaryIndexQuery index)
    | none => .ok .scan

end Strategy

end KeyedQuery
