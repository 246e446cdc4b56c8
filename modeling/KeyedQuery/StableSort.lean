/-!
# Stable sorting

`stableSort` inserts elements one after another into the sorted part, walking down from its end
past the elements that the new one has to precede. Elements that neither has to precede keep
their order.
-/

namespace KeyedQuery

variable {α : Type}

/-- Insert behind the last element that the new one need not precede. The sorted part is given
with its last element first. -/
def insertBack (precedes : α → α → Bool) (x : α) : List α → List α
  | [] => [x]
  | y :: rest => if precedes x y then y :: insertBack precedes x rest else x :: y :: rest

/-- Sort by insertion, keeping the order of elements that need not precede each other. -/
def stableSort (precedes : α → α → Bool) (xs : List α) : List α :=
  (xs.foldl (fun sorted x => insertBack precedes x sorted) []).reverse

end KeyedQuery
