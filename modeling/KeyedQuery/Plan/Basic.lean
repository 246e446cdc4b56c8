import KeyedQuery.Config
import KeyedQuery.Plan.Strategy
import KeyedQuery.Query.Normalize

/-!
# Plans

A `Plan` is a query with every name resolved and every choice made: how the rows are reached,
what the store does and what is left to be done in memory. `Plan.ofQuery` makes it without any
request; what is wrong with a query shows here.
-/

namespace KeyedQuery

/-- What running a plan involves. -/
structure Directives where
  /-- How the rows of the model are reached. -/
  baseStrategy : Strategy
  /-- How the rows of each join are reached. -/
  joinStrategies : List Strategy
  /-- Rows have to be filtered in memory. -/
  clientFilter : Bool
  /-- Rows have to be sorted in memory. -/
  clientSort : Bool
  /-- The direction in which the store walks the key, if that is the wanted order. -/
  serverSort : Option SortDirection
  /-- The rows after which fetching may stop. -/
  fetchLimit : Option Nat
deriving DecidableEq

/-- A join with every name resolved. -/
structure ResolvedJoin where
  targetModel : String
  table : String
  keys : KeySchema
  relation : Relation
  /-- The physical field of the row. -/
  localField : String
  /-- The physical field of the target rows. -/
  foreignField : String
  /-- The most rows attached to one row. -/
  cap : Nat
  /-- The attribute to attach under. -/
  label : String
deriving DecidableEq

/-- A query with every name resolved and every choice made. -/
structure Plan where
  model : String
  table : String
  keys : KeySchema
  conditions : List NormalizedCondition
  /-- The wanted order, by a physical field. -/
  sort : Option SortSpec
  limit : Option Nat
  offset : Nat
  /-- The physical fields to return. -/
  select : Option (List String)
  joins : List ResolvedJoin
  /-- The key that the conditions fix, if they do. -/
  keyMatch : Option KeyMatch
  directives : Directives
deriving DecidableEq

namespace Plan

/-- The largest number of rows that can be asked for. -/
def maxSize : Nat := Nat.pow 2 64 - 1

/-- A sum of sizes, saturated. -/
def addSizes (a b : Nat) : Nat :=
  min (a + b) maxSize

/-- Some condition is one of a choice. -/
def hasChoice (p : Plan) : Bool :=
  p.conditions.any fun c => c.connector = .or

/-- The rows reached by a strategy have to be filtered in memory. -/
def needsClientFilter (strategy : Strategy) (conditions : List NormalizedCondition) : Bool :=
  conditions.any (fun c => c.connector = .or) || conditions.any (fun c => c.clientOnly) ||
    (strategy = .batchGet && 1 < conditions.length)

/-- The direction in which walking the matched key yields the wanted order. -/
def serverSort? (sort : Option SortSpec) (m : Option KeyMatch) : Option SortDirection := do
  let s ← sort
  let m ← m
  if m.keys.sort = some s.field then some s.direction else none

/-- Resolve one join of a model. -/
def resolveJoin (r : Resolver) (c : Config) (model : String) (j : JoinEdge) :
    Except Fault (ResolvedJoin × Strategy) := do
  if j.targetModel = "" ∨ j.localField = "" ∨ j.foreignField = "" then
    .error (.missingInput "Join requires target model, local field and foreign field")
  if j.limit = some 0 then
    .error (.missingInput ("Join limit for '" ++ j.targetModel ++ "' must be positive"))
  let foreignField := r.fieldName j.targetModel j.foreignField
  let table ← r.table j.targetModel
  let keys ← r.primaryKey j.targetModel
  let cap := match j.relation with
    | .oneToOne => 1
    | .oneToMany => j.limit.getD c.defaultJoinLimit
  let join :=
    { targetModel := j.targetModel, table, keys, relation := j.relation,
      localField := r.fieldName model j.localField, foreignField, cap,
      label := j.label.getD j.targetModel }
  let strategy ← Strategy.ofField r j.targetModel foreignField
  .ok (join, strategy)

/-- Plan a query. -/
def ofQuery (r : Resolver) (c : Config) (q : FindQuery) : Except Fault Plan := do
  if q.model = "" then
    .error (.missingInput "Query has no model")
  let table ← r.table q.model
  let keys ← r.primaryKey q.model
  let conditions ← normalizeAll r q.model q.conditions
  let keyMatch ← KeyMatch.find r q.model conditions
  let baseStrategy ← match keyMatch with
    | some m => .ok m.strategy
    | none => Strategy.ofConditions r q.model conditions
  let clientFilter := needsClientFilter baseStrategy conditions
  let sort := q.sort.map fun s => { s with field := r.fieldName q.model s.field }
  let serverSort := serverSort? sort keyMatch
  let clientSort := sort.isSome && serverSort.isNone
  let offset := q.offset.getD 0
  let fetchLimit :=
    if clientFilter || clientSort then none else q.limit.map fun l => addSizes l offset
  let joins ← q.joins.mapM (resolveJoin r c q.model)
  .ok
    { model := q.model, table, keys, conditions, sort, limit := q.limit, offset,
      select := q.select.map fun fields => fields.map (r.fieldName q.model)
      joins := joins.map Prod.fst
      keyMatch
      directives :=
        { baseStrategy, joinStrategies := joins.map Prod.snd, clientFilter, clientSort,
          serverSort, fetchLimit } }

end Plan

end KeyedQuery
