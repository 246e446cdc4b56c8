import KeyedQuery.Value.Basic

/-!
# Documents

A `Document` is a JSON text as written: maps keep their fields in order and with repetitions,
and a leaf that the grammar admits but no value can hold, a number beyond binary64 or a text
with half a surrogate pair, stays in place as unreadable. A decoder that skips a field never
looks at what stands in it, so such a leaf only matters where it is wanted.

`Document.toValue?` forgets the difference: the last of repeated fields wins.
-/

namespace KeyedQuery

/-- A JSON text as written. -/
inductive Document where
  /-- The null literal. -/
  | null
  /-- A truth literal. -/
  | bool (b : Bool)
  /-- A number. -/
  | num (n : Number)
  /-- A text. -/
  | str (s : String)
  /-- A leaf that no value can hold. -/
  | unreadable
  /-- A list. -/
  | list (xs : List Document)
  /-- A map; a name that no text can hold is `none`. -/
  | map (fields : List (Option String × Document))

namespace Document

/-- Reading a value follows documents nested at most this deep. -/
def maxDepth : Nat := 127

mutual

/-- The value a document stands for, if it is nested at most `room` deep and every leaf is
readable. -/
def toValue? : Nat → Document → Option Value
  | _, .null => some .null
  | _, .bool b => some (.bool b)
  | _, .num n => some (.num n)
  | _, .str s => some (.str s)
  | _, .unreadable => none
  | 0, .list _ => none
  | room + 1, .list xs => (toValues? room xs).map .list
  | 0, .map _ => none
  | room + 1, .map fs => (toFields? room fs).map fun fields => .map (Fields.ofList fields)
termination_by structural _ d => d

/-- The values of list elements. -/
def toValues? : Nat → List Document → Option (List Value)
  | _, [] => some []
  | room, d :: ds => do
    let v ← toValue? room d
    let vs ← toValues? room ds
    some (v :: vs)
termination_by structural _ ds => ds

/-- The names and values of fields, in the order written. -/
def toFields? : Nat → List (Option String × Document) → Option (List (String × Value))
  | _, [] => some []
  | room, (name, d) :: fs => do
    let name ← name
    let v ← toValue? room d
    let rest ← toFields? room fs
    some ((name, v) :: rest)
termination_by structural _ fs => fs

end

mutual

/-- A value as a document. -/
def ofValue : Value → Document
  | .null => .null
  | .bool b => .bool b
  | .num n => .num n
  | .str s => .str s
  | .list xs => .list (ofValues xs)
  | .map fs => .map (ofFields fs)
termination_by structural v => v

/-- Values as list elements. -/
def ofValues : List Value → List Document
  | [] => []
  | v :: vs => ofValue v :: ofValues vs
termination_by structural vs => vs

/-- Named values as fields. -/
def ofFields : List (String × Value) → List (Option String × Document)
  | [] => []
  | (name, v) :: fs => (some name, ofValue v) :: ofFields fs
termination_by structural fs => fs

end

end Document

end KeyedQuery
