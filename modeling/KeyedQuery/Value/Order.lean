import KeyedQuery.Value.Basic
import KeyedQuery.Value.Timestamp

/-!
# Order of values

`Value.compare?` orders two values of one comparable type: numbers by value, booleans with
false first, texts as timestamps when both read as one and by code points otherwise. Any other
two values are incomparable.
-/

namespace KeyedQuery

/-- Lexicographic order by code points. -/
def compareText (a b : String) : Ordering :=
  if a < b then .lt else if b < a then .gt else .eq

/-- False before true. -/
def compareTruth : Bool → Bool → Ordering
  | false, true => .lt
  | true, false => .gt
  | _, _ => .eq

namespace Value

/-- Order of two texts: in time when both are timestamps, by code points otherwise. -/
def compareStrings (a b : String) : Ordering :=
  match Instant.read? a, Instant.read? b with
  | some s, some t => s.compare t
  | _, _ => compareText a b

/-- Order of two values of one comparable type. -/
def compare? : Value → Value → Option Ordering
  | .num a, .num b => some (a.compare b)
  | .str a, .str b => some (compareStrings a b)
  | .bool a, .bool b => some (compareTruth a b)
  | _, _ => none

end Value

end KeyedQuery
