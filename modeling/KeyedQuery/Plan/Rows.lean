import KeyedQuery.Plan.Join
import KeyedQuery.Query.Rows

/-!
# Rows of a plan

`Plan.rows` runs a plan: the rows are fetched, filtered, sorted, cut to the window, restricted to
the selected fields, and joined, in this order, as far as the plan asks for it. `Plan.countRows`
counts the rows that satisfy the conditions, in the store if the store can tell them apart.
-/

namespace KeyedQuery

namespace Plan

/-! ## Fetching -/

/-- The rows of several requests one after another, up to a common limit behind what has been
collected. A request is not sent once the limit is reached. -/
def collectInTurn (policy : FetchPolicy) (limit : Option Nat) (collected : List Item) :
    List PageRequest → Run (List Item)
  | [] => pure collected
  | p :: rest =>
    if FetchPolicy.reached limit collected then
      pure collected
    else do
      let more ← policy.collect p (limit.map fun n => n - collected.length)
      collectInTurn policy limit (collected ++ more) rest

/-- The position of a row's value among some values; behind all of them if it is none. -/
def rank (field : String) (values : List Value) (item : Item) : Nat :=
  match Fields.get? item field with
  | some v => values.findIdx fun w => w.groupKey = v.groupKey
  | none => values.length

/-- The rows in the order of the values of a field. -/
def inOrderOf (field : String) (values : List Value) (items : List Item) : List Item :=
  stableSort (fun a b => rank field values a < rank field values b) items

/-- The rows that the plan's strategy reaches, up to a limit if the strategy can stop. -/
def fetch (p : Plan) (policy : FetchPolicy) (limit : Option Nat) : Run (List Item) :=
  match p.directives.baseStrategy with
  | .primaryKeyQuery | .secondaryIndexQuery _ => do
    let request ← Run.ofExcept p.keyQuery
    policy.collect request limit
  | .multiQuery index field => do
    let requests ← Run.ofExcept (p.valueQueries index field)
    collectInTurn policy limit [] requests
  | .batchGet => do
    let values ← Run.ofExcept p.partitionValues
    let field := p.keys.partition
    let items ← policy.retry.batchGet p.table (values.map fun v => [(field, v)])
    pure (inOrderOf field values items)
  | .scan => policy.collect p.scanRequest limit

/-! ## Running -/

/-- The fetched rows that satisfy the conditions, if that is left to be tested. -/
def filterRows (p : Plan) (items : List Item) : List Item :=
  if p.directives.clientFilter then keepMatching p.conditions items else items

/-- The rows in the wanted order, if the store has not ordered them. -/
def sortRows (p : Plan) (items : List Item) : List Item :=
  match p.sort with
  | some s => if p.directives.clientSort then s.sortItems items else items
  | none => items

/-- The rows with the selected fields and the fields that joins look at. -/
def selectRows (p : Plan) (items : List Item) : List Item :=
  match p.select with
  | some select => selectFields select (p.joins.map ResolvedJoin.localField) items
  | none => items

/-- The rows with the partners of every join, one join after another. -/
def joinRows (policy : FetchPolicy) : List (ResolvedJoin × Strategy) → List Item → Run (List Item)
  | [], rows => pure rows
  | (j, strategy) :: rest, rows => do
    let joined ← j.attach policy strategy rows
    joinRows policy rest joined

/-- Run a plan. -/
def rows (p : Plan) (policy : FetchPolicy) : Run (List Item) := do
  let fetched ← p.fetch policy p.directives.fetchLimit
  let kept := p.filterRows fetched
  if p.directives.clientFilter then
    Run.count .rowsFiltered (UInt64.ofNat (fetched.length - kept.length))
  let window := cutWindow p.offset p.limit (p.sortRows kept)
  let joined ← joinRows policy (p.joins.zip p.directives.joinStrategies) (p.selectRows window)
  Run.count .finds 1
  pure joined

/-! ## Counting -/

/-- The request whose count is the number of rows, if there is one. -/
def countRequest? (p : Plan) : Option (Except Fault PageRequest) :=
  if p.directives.clientFilter then
    none
  else
    match p.directives.baseStrategy with
    | .primaryKeyQuery | .secondaryIndexQuery _ => some p.keyQuery
    | .scan => some (.ok p.scanRequest)
    | .multiQuery _ _ | .batchGet => none

/-- Count the rows that satisfy the plan's conditions, whatever its window. -/
def countRows (p : Plan) (policy : FetchPolicy) : Run Nat := do
  let total ← match p.countRequest? with
    | some request => do
      let request ← Run.ofExcept request
      policy.count request
    | none => do
      let fetched ← p.fetch policy none
      pure (p.filterRows fetched).length
  Run.count .counts 1
  pure total

end Plan

end KeyedQuery
