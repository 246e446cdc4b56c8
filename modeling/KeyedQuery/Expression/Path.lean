import KeyedQuery.Value.Order

/-!
# Document paths

A path leads from a row into its nested maps and lists. `Value.follow?` reads the value at a
path; `Value.setAt?` and `Value.removeAt` change it. Both changes make the maps that are missing
on the way, and both stop where a list has no such element or the kind of a value does not fit.
-/

namespace KeyedQuery

/-- One step into a value. -/
inductive Segment where
  /-- Into a map, by name. -/
  | key (name : String)
  /-- Into a list, by position. -/
  | index (i : Nat)
deriving DecidableEq

/-- A way into nested values. -/
abbrev Path := List Segment

namespace Segment

/-- Names come before positions; names by code points, positions by number. -/
protected def compare : Segment → Segment → Ordering
  | .key a, .key b => compareText a b
  | .key _, .index _ => .lt
  | .index _, .key _ => .gt
  | .index i, .index j => Ord.compare i j

end Segment

/-- Lexicographic order of paths; a path comes before those that go on from it. -/
def Path.compare : Path → Path → Ordering
  | [], [] => .eq
  | [], _ :: _ => .lt
  | _ :: _, [] => .gt
  | a :: p, b :: q => (a.compare b).then (Path.compare p q)

namespace Value

/-- The value at the end of a path. -/
def follow? : Path → Value → Option Value
  | [], v => some v
  | .key k :: rest, .map fs => (Fields.get? fs k).bind (follow? rest)
  | .index i :: rest, .list xs => xs[i]?.bind (follow? rest)
  | _, _ => none

/-- The value of a map's field, or an empty map in its place. -/
def fieldOrMap (fs : Fields Value) (k : String) : Value :=
  (Fields.get? fs k).getD (.map [])

/-- Put a value at the end of a path. A position at or beyond the end of a list appends. -/
def setAt? (new : Value) : Path → Value → Option Value
  | [.key k], .map fs => some (.map (Fields.insert fs k new))
  | [.index i], .list xs => some (.list (if i < xs.length then xs.set i new else xs ++ [new]))
  | .key k :: rest, .map fs =>
    (setAt? new rest (fieldOrMap fs k)).map fun v => .map (Fields.insert fs k v)
  | .index i :: rest, .list xs =>
    xs[i]?.bind fun x => (setAt? new rest x).map fun v => .list (xs.set i v)
  | _, _ => none

/-- Drop the value at the end of a path, if there is one. -/
def removeAt : Path → Value → Value
  | [.key k], .map fs => .map (Fields.erase fs k)
  | [.index i], .list xs => .list (xs.eraseIdx i)
  | .key k :: rest, .map fs => .map (Fields.insert fs k (removeAt rest (fieldOrMap fs k)))
  | .index i :: rest, .list xs =>
    match xs[i]? with
    | some x => .list (xs.set i (removeAt rest x))
    | none => .list xs
  | _, v => v

end Value

end KeyedQuery
