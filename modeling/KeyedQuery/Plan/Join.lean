import KeyedQuery.Fetch.Batch
import KeyedQuery.Fetch.Pages
import KeyedQuery.Plan.Requests
import KeyedQuery.Value.Text

/-!
# Joins

`ResolvedJoin.attach` gives every row the target rows whose foreign field agrees with its local
field. The distinct local values are looked up together, by the strategy of the join; then each
row takes its partners, one or null, or a list of at most as many as the join allows.
-/

namespace KeyedQuery

/-- The group of an attribute's value; none if it is absent or null. -/
def Item.group? (item : Item) (field : String) : Option String :=
  ((Fields.get? item field).filter fun v => !v.isNull).map Value.groupKey

/-- The distinct values of a field, in order, without null. -/
def distinctFieldValues (field : String) (items : List Item) : List Value :=
  Value.distinct ((items.filterMap fun item => Fields.get? item field).filter fun v => !v.isNull)

namespace ResolvedJoin

/-- The rows among the target rows that go with a row. -/
def partners (j : ResolvedJoin) (targets : List Item) (row : Item) : List Item :=
  match Item.group? row j.localField with
  | some group => targets.filter fun item => Item.group? item j.foreignField = some group
  | none => []

/-- What a row gets for its partners. -/
def attachment (j : ResolvedJoin) (partners : List Item) : Value :=
  match j.relation with
  | .oneToOne => .ofOption (partners.head?.map .map)
  | .oneToMany => .list ((partners.take j.cap).map .map)

/-- A row with its partners under the join's alias. -/
def attachTo (j : ResolvedJoin) (targets : List Item) (row : Item) : Item :=
  Fields.insert row j.label (j.attachment (j.partners targets row))

/-- The rows of several requests one after another, each with a limit of its own. -/
def collectEach (policy : FetchPolicy) (limit : Option Nat) (requests : List PageRequest) :
    Run (List Item) := do
  let parts ← requests.mapM fun p => policy.collect p limit
  pure parts.flatten

/-- The target rows of some values. -/
def fetch (policy : FetchPolicy) (j : ResolvedJoin) (values : List Value) :
    Strategy → Run (List Item)
  | .batchGet => policy.retry.batchGet j.table (values.map fun v => [(j.foreignField, v)])
  | .primaryKeyQuery => collectEach policy (some j.cap) (values.map (j.valueQuery none))
  | .secondaryIndexQuery index | .multiQuery index _ =>
    collectEach policy (some j.cap) (values.map (j.valueQuery (some index)))
  | .scan => collectEach policy none ((chunksOf maxBatchKeys values).map j.valuesScan)

/-- Attach to every row its partners. Without any local value nothing is fetched. -/
def attach (policy : FetchPolicy) (j : ResolvedJoin) (strategy : Strategy) (rows : List Item) :
    Run (List Item) := do
  let values := distinctFieldValues j.localField rows
  let targets ←
    if values.isEmpty then pure []
    else j.fetch policy values (strategy.forValues values.length j.keys)
  pure (rows.map (j.attachTo targets))

end ResolvedJoin

end KeyedQuery
