import KeyedQuery.Plan.Basic
import KeyedQuery.Plan.Filter
import KeyedQuery.Store.Request
import KeyedQuery.Value.Text

/-!
# Requests of a plan

The requests by which the rows of a plan are reached, as far as they do not depend on what the
store answers: the one query of a key match, the queries of a membership on an indexed attribute,
one a value, the keys of a membership on the partition attribute, and the scan.
-/

namespace KeyedQuery

/-- A query of a table or an index. The texts are written with placeholders of their own. -/
def PageRequest.query (table : String) (index : Option String) (forward : Bool)
    (texts : StateM Placeholders (String × Option String)) : PageRequest :=
  let ((keyCondition, filter), tokens) := texts.run {}
  { table, access := .query index keyCondition forward, filter, attributes := tokens.attributes }

/-- A scan of a table. The filter is written with placeholders of its own. -/
def PageRequest.scan (table : String) (text : StateM Placeholders (Option String)) :
    PageRequest :=
  let (filter, tokens) := text.run {}
  { table, access := .scan, filter, attributes := tokens.attributes }

/-- A required membership of a field in a list, and the other conditions. -/
structure Membership where
  /-- The distinct elements of the list. -/
  values : List Value
  /-- The other conditions, in order. -/
  remaining : List NormalizedCondition

/-- The first required membership of a field. -/
def Membership.find? (conditions : List NormalizedCondition) (field : String) :
    Option Membership := do
  let position ← conditions.findIdx? fun c => c.isKeyMembership ∧ c.field = field
  let c ← conditions[position]?
  some ⟨c.value.candidates, keepPositions (fun i => i ≠ position) conditions⟩

namespace Plan

/-- What a plan ends with whose conditions do not fix the key that its strategy needs. -/
def missingKey (p : Plan) : Fault :=
  .missingKeyCondition p.model

/-- The texts of a key match: its key condition, and the filter of the other conditions. -/
def matchTexts? (p : Plan) (m : KeyMatch) :
    StateM Placeholders (Option (KeyCondition × Option String)) := do
  match ← m.keyCondition? p.conditions with
  | some key =>
    let filter ← filterExpression? key.remaining
    pure (some (key, filter))
  | none => pure none

/-- The query of the plan's key match. It runs backward only if that yields the wanted order. -/
def keyQuery (p : Plan) : Except Fault PageRequest :=
  match p.keyMatch.map fun m => (p.matchTexts? m).run {} with
  | some (some (key, filter), tokens) =>
    .ok
      { table := p.table
        access := .query key.index key.expression (p.directives.serverSort ≠ some .desc)
        filter
        attributes := tokens.attributes }
  | _ => .error p.missingKey

/-- The scan of the plan's table. -/
def scanRequest (p : Plan) : PageRequest :=
  .scan p.table (filterExpression? p.conditions)

/-- The query of an index for one value of its partition attribute. -/
def valueQuery (p : Plan) (index field : String) (remaining : List NormalizedCondition)
    (v : Value) : PageRequest :=
  .query p.table (some index) true do
    let keyCondition ← partitionCondition field v
    let filter ← filterExpression? remaining
    pure (keyCondition, filter)

/-- The queries of an index, one for each value of a membership. -/
def valueQueries (p : Plan) (index field : String) : Except Fault (List PageRequest) :=
  match Membership.find? p.conditions field with
  | some m => .ok (m.values.map (p.valueQuery index field m.remaining))
  | none => .error p.missingKey

/-- The partition values of a membership on the partition attribute. -/
def partitionValues (p : Plan) : Except Fault (List Value) :=
  match Membership.find? p.conditions p.keys.partition with
  | some m => .ok m.values
  | none => .error p.missingKey

end Plan

namespace ResolvedJoin

/-- The query for the target rows of one value. -/
def valueQuery (j : ResolvedJoin) (index : Option String) (v : Value) : PageRequest :=
  .query j.table index true do
    let keyCondition ← partitionCondition j.foreignField v
    pure (keyCondition, none)

/-- The scan for the target rows of some values. -/
def valuesScan (j : ResolvedJoin) (values : List Value) : PageRequest :=
  .scan j.table (some <$> memberFilter j.foreignField values)

end ResolvedJoin

end KeyedQuery
