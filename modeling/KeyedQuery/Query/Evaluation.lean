import KeyedQuery.Expression.Predicate
import KeyedQuery.Expression.Placeholders
import KeyedQuery.Query.Basic

/-!
# Operators at work

What each operator means for an attribute (`Operator.holds`), which values the store can be sent
with it (`Operator.isNativeFor`), and how it is written in an expression (`Operator.fragment?`).
`matchesAll` is the meaning of a list of conditions: every required one holds, and of the others,
if there are any, at least one.
-/

namespace KeyedQuery

/-- The most values a membership condition of the store can have. -/
def maxMembers : Nat := 100

namespace Operator

/-! ## Meaning -/

/-- Equality; an absent attribute equals null. -/
def equals (actual : Option Value) (expected : Value) : Bool :=
  match actual with
  | some v => v.agrees expected
  | none => expected.isNull

/-- A comparison by order; absent and null attributes satisfy none. -/
def ordered (op : Comparator) (actual : Option Value) (expected : Value) : Bool :=
  match actual with
  | some .null => false
  | some v => (v.compare? expected).any op.admits
  | none => false

/-- Membership in a list; any other value stands for the list of itself. -/
def member (actual : Option Value) (expected : Value) : Bool :=
  match actual, expected with
  | none, _ => false
  | some v, .list xs => xs.any fun x => v.agrees x
  | some v, w => v.agrees w

/-- The operator holds between an attribute and a value. -/
def holds : Operator → Option Value → Value → Bool
  | .eq => equals
  | .ne => fun actual expected => !equals actual expected
  | .gt => ordered .gt
  | .gte => ordered .ge
  | .lt => ordered .lt
  | .lte => ordered .le
  | .isIn => member
  | .notIn => fun actual expected => !member actual expected
  | .contains => Value.contains
  | .startsWith => Value.beginsWith
  | .endsWith => Value.endsWith

/-! ## Native form -/

/-- The store has no form for the operator. -/
def isClientOnly : Operator → Bool
  | .endsWith => true
  | _ => false

/-- A list the store takes in a membership condition: not empty and not too long. -/
def isMemberList : Value → Bool
  | .list xs => 0 < xs.length ∧ xs.length ≤ maxMembers
  | _ => false

/-- The store can evaluate the operator with this value. -/
def isNativeFor (op : Operator) (expected : Value) : Bool :=
  match op with
  | .endsWith => false
  | .isIn | .notIn => isMemberList expected
  | _ => true

/-- A comparison of a named attribute with a new value token. -/
def comparison (name sign : String) (expected : Value) : StateM Placeholders String := do
  let token ← Placeholders.value expected
  pure (name ++ " " ++ sign ++ " " ++ token)

/-- A membership of a named attribute in new value tokens. -/
def membership (name : String) (values : List Value) : StateM Placeholders String := do
  let tokens ← Placeholders.valueList values
  pure (name ++ " IN (" ++ tokens ++ ")")

/-- A function condition on a named attribute and a new value token. -/
def application (function name : String) (expected : Value) : StateM Placeholders String := do
  let token ← Placeholders.value expected
  pure (function ++ "(" ++ name ++ ", " ++ token ++ ")")

/-- The operator written for the store, if the store has a form for it with this value. -/
def fragment? (op : Operator) (name : String) (expected : Value) :
    StateM Placeholders (Option String) :=
  match op, expected with
  | .eq, v => some <$> comparison name "=" v
  | .ne, v => some <$> comparison name "<>" v
  | .gt, v => some <$> comparison name ">" v
  | .gte, v => some <$> comparison name ">=" v
  | .lt, v => some <$> comparison name "<" v
  | .lte, v => some <$> comparison name "<=" v
  | .isIn, .list xs =>
    if isMemberList (.list xs) then some <$> membership name xs else pure none
  | .notIn, .list xs =>
    if isMemberList (.list xs) then do
      let inner ← membership name xs
      pure (some ("NOT (" ++ inner ++ ")"))
    else
      pure none
  | .contains, v => some <$> application "contains" name v
  | .startsWith, v => some <$> application "begins_with" name v
  | .endsWith, _ | .isIn, _ | .notIn, _ => pure none

end Operator

namespace NormalizedCondition

/-- The row satisfies the condition. -/
def holds (c : NormalizedCondition) (item : Item) : Bool :=
  c.operator.holds (Fields.get? item c.field) c.value

end NormalizedCondition

/-- The row satisfies the conditions: every one marked `and`, and one of those marked `or` if
there are any. -/
def matchesAll (conditions : List NormalizedCondition) (item : Item) : Bool :=
  let required := conditions.filter fun c => c.connector = .and
  let choices := conditions.filter fun c => c.connector = .or
  (required.all fun c => c.holds item) && (choices.isEmpty || choices.any fun c => c.holds item)

end KeyedQuery
