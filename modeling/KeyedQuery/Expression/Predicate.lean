import KeyedQuery.Expression.Path
import KeyedQuery.Expression.Token
import KeyedQuery.Text.Parts

/-!
# Predicates

A `Predicate` is a parsed condition, `Predicate.holds` its meaning for a row. An attribute that
is not there satisfies inequality and nothing else.
-/

namespace KeyedQuery

/-- A parsed condition. -/
inductive Predicate where
  | and (left right : Predicate)
  | or (left right : Predicate)
  | not (inner : Predicate)
  | compare (path : Path) (op : Comparator) (expected : Value)
  | isIn (path : Path) (candidates : List Value)
  | beginsWith (path : Path) (start : Value)
  | contains (path : Path) (part : Value)
deriving DecidableEq

namespace Comparator

/-- The ordering satisfies a comparison by order; equality tests never get here. -/
def admits : Comparator → Ordering → Bool
  | .eq, o => o = .eq
  | .ne, o => o ≠ .eq
  | .lt, o => o = .lt
  | .le, o => o ≠ .gt
  | .gt, o => o = .gt
  | .ge, o => o ≠ .lt

/-- The comparison holds between an attribute and a value. -/
def holds (op : Comparator) (actual : Option Value) (expected : Value) : Bool :=
  match actual with
  | none => op = .ne
  | some v =>
    match op with
    | .eq => v.agrees expected
    | .ne => !v.agrees expected
    | op => (v.compare? expected).any op.admits

end Comparator

namespace Value

/-- Both are texts and the first begins with the second. -/
def beginsWith : Option Value → Value → Bool
  | some (.str s), .str part => KeyedQuery.beginsWith s part
  | _, _ => false

/-- Both are texts and the first ends with the second. -/
def endsWith : Option Value → Value → Bool
  | some (.str s), .str part => endsIn s part
  | _, _ => false

/-- A text has the other as a part, or a list has it as an element. -/
def contains : Option Value → Value → Bool
  | some (.str s), .str part => hasPart s part
  | some (.list xs), part => xs.any fun x => x.agrees part
  | _, _ => false

end Value

namespace Predicate

/-- The row satisfies the condition. -/
def holds (item : Item) : Predicate → Bool
  | .and a b => a.holds item && b.holds item
  | .or a b => a.holds item || b.holds item
  | .not a => !a.holds item
  | .compare path op expected => op.holds (Value.follow? path (.map item)) expected
  | .isIn path candidates =>
    (Value.follow? path (.map item)).any fun v => candidates.any fun c => v.agrees c
  | .beginsWith path start => Value.beginsWith (Value.follow? path (.map item)) start
  | .contains path part => Value.contains (Value.follow? path (.map item)) part

end Predicate

end KeyedQuery
