import KeyedQuery.Text.Parts
import KeyedQuery.Value.Basic

/-!
# Queries

A `FindQuery` names a model and says which rows are wanted, in which order, how many, which of
their fields, and which rows of other models go with them. Operators and connectors come as
loose texts; `NormalizedCondition` is a condition after they have been understood and its field
has its physical name.
-/

namespace KeyedQuery

/-- The operators of conditions. -/
inductive Operator where
  | eq | ne | gt | gte | lt | lte | isIn | notIn | contains | startsWith | endsWith
deriving DecidableEq

namespace Operator

/-- The operators with their names. -/
def named : List (String × Operator) :=
  [("eq", .eq), ("ne", .ne), ("gt", .gt), ("gte", .gte), ("lt", .lt), ("lte", .lte),
    ("in", .isIn), ("not_in", .notIn), ("contains", .contains), ("starts_with", .startsWith),
    ("ends_with", .endsWith)]

/-- The operator of a name, in any case of ASCII letters. -/
def ofName? (name : String) : Option Operator :=
  named.lookup (name.map Char.toLower)

/-- The name of an operator. -/
def name : Operator → String
  | .eq => "eq"
  | .ne => "ne"
  | .gt => "gt"
  | .gte => "gte"
  | .lt => "lt"
  | .lte => "lte"
  | .isIn => "in"
  | .notIn => "not_in"
  | .contains => "contains"
  | .startsWith => "starts_with"
  | .endsWith => "ends_with"

end Operator

/-- How a condition stands to the others. -/
inductive Connector where
  /-- The condition has to hold. -/
  | and
  /-- One of the conditions so marked has to hold. -/
  | or
deriving DecidableEq

namespace Connector

/-- The connector of a text: `or` in any case of ASCII letters, otherwise `and`. -/
def ofText? : Option String → Connector
  | some s => if sameWord s "or" then .or else .and
  | none => .and

/-- The connector as it is written. -/
def text : Connector → String
  | .and => "AND"
  | .or => "OR"

end Connector

/-- A condition as a caller states it. -/
structure Condition where
  /-- The logical field. -/
  field : String
  /-- The operator's name; equality if left out. -/
  operator : Option String := none
  /-- The value to compare with. -/
  value : Value
  /-- The connector's text. -/
  connector : Option String := none
deriving DecidableEq

/-- A condition with its parts understood. -/
structure NormalizedCondition where
  /-- The physical field. -/
  field : String
  /-- The operator. -/
  operator : Operator
  /-- The value to compare with. -/
  value : Value
  /-- The connector. -/
  connector : Connector
  /-- The store cannot evaluate the condition. -/
  clientOnly : Bool := false
deriving DecidableEq

namespace NormalizedCondition

/-- A required equality. -/
def isKeyEquality (c : NormalizedCondition) : Bool :=
  c.connector = .and ∧ c.operator = .eq

/-- A required membership in a list. -/
def isKeyMembership (c : NormalizedCondition) : Bool :=
  c.connector = .and ∧ c.operator = .isIn ∧ c.value.isList

end NormalizedCondition

/-- The directions of a sort. -/
inductive SortDirection where
  | asc | desc
deriving DecidableEq

/-- The direction as it is written. -/
def SortDirection.text : SortDirection → String
  | .asc => "asc"
  | .desc => "desc"

/-- The order in which rows are wanted. -/
structure SortSpec where
  /-- The field to sort by. -/
  field : String
  /-- The direction. -/
  direction : SortDirection := .asc
deriving DecidableEq

/-- How many rows a join attaches. -/
inductive Relation where
  /-- One row or null. -/
  | oneToOne
  /-- A list of rows. -/
  | oneToMany
deriving DecidableEq

/-- The relation as it is written. -/
def Relation.text : Relation → String
  | .oneToOne => "one_to_one"
  | .oneToMany => "one_to_many"

/-- Rows of another model to attach to each row. -/
structure JoinEdge where
  /-- The model whose rows are attached. -/
  targetModel : String
  /-- How many rows are attached. -/
  relation : Relation
  /-- The field of the row whose value is looked up. -/
  localField : String
  /-- The field of the other model that has to agree with it. -/
  foreignField : String
  /-- The most rows a list takes. -/
  limit : Option Nat := none
  /-- The attribute to attach under; the model's name if left out. -/
  label : Option String := none
deriving DecidableEq

/-- A request for rows of one model. -/
structure FindQuery where
  /-- The logical model. -/
  model : String
  /-- The conditions on the rows. -/
  conditions : List Condition := []
  /-- The order of the rows. -/
  sort : Option SortSpec := none
  /-- The most rows to return. -/
  limit : Option Nat := none
  /-- The rows to leave out at the start. -/
  offset : Option Nat := none
  /-- The fields to return; all of them if left out. -/
  select : Option (List String) := none
  /-- The rows of other models to attach. -/
  joins : List JoinEdge := []
deriving DecidableEq

namespace FindQuery

/-- Add a condition. -/
def withCondition (q : FindQuery) (c : Condition) : FindQuery :=
  { q with conditions := q.conditions ++ [c] }

/-- Add a join. -/
def withJoin (q : FindQuery) (j : JoinEdge) : FindQuery :=
  { q with joins := q.joins ++ [j] }

end FindQuery

end KeyedQuery
