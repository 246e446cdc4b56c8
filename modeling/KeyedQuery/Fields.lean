/-!
# Named fields

`Fields α` maps names to values as an association list kept in ascending order of the names,
each name once. `Fields.insert` and `Fields.erase` keep that order, and `Fields.ofList` makes
such a list of any pairs, the last pair of a name winning. Names compare by code point.
-/

namespace KeyedQuery

/-- Name and value pairs in ascending order of the names. -/
abbrev Fields (α : Type) := List (String × α)

namespace Fields

variable {α β : Type}

/-- The value under a name. -/
def get? : Fields α → String → Option α
  | [], _ => none
  | (name, value) :: rest, key => if name = key then some value else get? rest key

/-- Whether a name has a value. -/
def has (fields : Fields α) (key : String) : Bool :=
  (get? fields key).isSome

/-- Put a value under a name, replacing the one there. -/
def insert : Fields α → String → α → Fields α
  | [], key, value => [(key, value)]
  | (name, old) :: rest, key, value =>
    if name = key then (key, value) :: rest
    else if key < name then (key, value) :: (name, old) :: rest
    else (name, old) :: insert rest key value

/-- Drop a name. -/
def erase (fields : Fields α) (key : String) : Fields α :=
  fields.filter fun field => field.1 ≠ key

/-- Put every field of the second list over the first. -/
def merge (fields others : Fields α) : Fields α :=
  others.foldl (fun acc field => insert acc field.1 field.2) fields

/-- Fields from pairs in any order; the last pair of a name wins. -/
def ofList (pairs : List (String × α)) : Fields α :=
  merge [] pairs

/-- The names in order. -/
def names (fields : Fields α) : List String :=
  fields.map Prod.fst

/-- Apply a function to the values. -/
def mapValues (f : α → β) (fields : Fields α) : Fields β :=
  fields.map fun field => (field.1, f field.2)

/-- The names ascend strictly, so none occurs twice. -/
def Ordered (fields : Fields α) : Prop :=
  (names fields).Pairwise (· < ·)

end Fields

end KeyedQuery
