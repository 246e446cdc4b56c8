import KeyedQuery.Catalog.Basic
import KeyedQuery.Query.Evaluation

/-!
# Normalizing conditions

A condition as stated gets its operator, its connector, its physical field, and a mark when the
store cannot evaluate it. An operator name that no operator has refuses all of them.
-/

namespace KeyedQuery

/-- The operator a condition names; equality if it names none. -/
def Condition.operator? (c : Condition) : Except Fault Operator :=
  match c.operator with
  | none => .ok .eq
  | some name =>
    match Operator.ofName? name with
    | some op => .ok op
    | none => .error (.unsupportedOperator name)

/-- A condition on a model with its parts understood. -/
def Condition.normalize (r : Resolver) (model : String) (c : Condition) :
    Except Fault NormalizedCondition := do
  let operator ← c.operator?
  .ok
    { field := r.fieldName model c.field
      operator
      value := c.value
      connector := Connector.ofText? c.connector
      clientOnly := !operator.isNativeFor c.value }

/-- Conditions on a model with their parts understood. -/
def normalizeAll (r : Resolver) (model : String) (conditions : List Condition) :
    Except Fault (List NormalizedCondition) :=
  conditions.mapM (Condition.normalize r model)

end KeyedQuery
