import KeyedQuery.Grouping
import KeyedQuery.Query.Evaluation
import KeyedQuery.StableSort
import KeyedQuery.Value.Order

/-!
# Rows in memory

What is done to rows that the store has delivered: filtering, sorting by one field, cutting out
a window, and keeping selected fields. A sort keeps the order of rows that compare equal and puts
rows without a value last in both directions.
-/

namespace KeyedQuery

/-! ## Sorting -/

/-- The order of the types of values. -/
def Value.typeRank : Value → Nat
  | .null => 0
  | .bool _ => 1
  | .num _ => 2
  | .str _ => 3
  | .list _ => 4
  | .map _ => 5

/-- Ascending order of two values: their own if they are of one comparable type, that of their
types otherwise. -/
def Value.compareForSort (a b : Value) : Ordering :=
  (a.compare? b).getD (Ord.compare a.typeRank b.typeRank)

/-- An ordering in a direction. -/
def SortDirection.apply : SortDirection → Ordering → Ordering
  | .asc, o => o
  | .desc, o => o.swap

namespace SortSpec

/-- The order of two attributes. Absent and null ones come last whatever the direction. -/
def compareAttributes (direction : SortDirection) (a b : Option Value) : Ordering :=
  match Value.isMissing a, Value.isMissing b with
  | true, true => .eq
  | true, false => .gt
  | false, true => .lt
  | false, false =>
    direction.apply (Value.compareForSort (Value.ofOption a) (Value.ofOption b))

/-- The order of two rows. -/
def compareItems (s : SortSpec) (a b : Item) : Ordering :=
  compareAttributes s.direction (Fields.get? a s.field) (Fields.get? b s.field)

/-- Sort rows, keeping the order of equal ones. -/
def sortItems (s : SortSpec) (items : List Item) : List Item :=
  stableSort (fun a b => s.compareItems a b = .lt) items

end SortSpec

/-! ## Filtering, cutting and selecting -/

/-- The rows that satisfy conditions. -/
def keepMatching (conditions : List NormalizedCondition) (items : List Item) : List Item :=
  items.filter (matchesAll conditions)

/-- The rows from an offset on, up to a limit. -/
def cutWindow (offset : Nat) (limit : Option Nat) (items : List Item) : List Item :=
  takeAtMost limit (items.drop offset)

/-- The fields of a row that are among the given ones. -/
def Item.keepFields (names : List String) (item : Item) : Item :=
  item.filter fun field => field.1 ∈ names

/-- The rows with the selected fields, and those fields that are always kept. -/
def selectFields (select always : List String) (items : List Item) : List Item :=
  items.map (Item.keepFields (select ++ always))

end KeyedQuery
