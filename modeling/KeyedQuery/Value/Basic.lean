import KeyedQuery.Fields
import KeyedQuery.Number

/-!
# Values and items

A `Value` is what an attribute can hold: null, a boolean, a number, a text, a list or a map.
An `Item`, one stored row, maps attribute names to values, and so does the map inside a value.

Two equalities matter. `Value.same` is equality of documents, where `1` and `1.0` differ.
`Value.agrees` is the equality conditions use: at the top level numbers agree by value, and
everything else, numbers inside lists and maps included, is compared as a document.
-/

namespace KeyedQuery

/-- What an attribute can hold. -/
inductive Value where
  /-- The null value. -/
  | null
  /-- A truth value. -/
  | bool (b : Bool)
  /-- A number. -/
  | num (n : Number)
  /-- A text. -/
  | str (s : String)
  /-- A list of values. -/
  | list (xs : List Value)
  /-- A map from names to values. -/
  | map (fields : List (String × Value))

/-- One row: attribute names and their values. -/
abbrev Item := Fields Value

instance : Inhabited Value := ⟨.null⟩

namespace Value

/-- The value of an integer. -/
def ofInt (n : Int) : Value := .num (.int n)

/-- The value of a natural number. -/
def ofNat (n : Nat) : Value := .num (.int n)

/-- A present attribute's value, or null. -/
def ofOption : Option Value → Value
  | some v => v
  | none => .null

/-- Whether a value is null. -/
def isNull : Value → Bool
  | .null => true
  | _ => false

/-- Whether a value is a list. -/
def isList : Value → Bool
  | .list _ => true
  | _ => false

/-- Whether an attribute is absent or null. -/
def isMissing : Option Value → Bool
  | none => true
  | some v => v.isNull

/-! ## Identity -/

mutual

/-- Whether two values are the very same term. -/
def identical : Value → Value → Bool
  | .null, .null => true
  | .bool a, .bool b => a = b
  | .num a, .num b => a = b
  | .str a, .str b => a = b
  | .list xs, .list ys => identicalList xs ys
  | .map fs, .map gs => identicalFields fs gs
  | _, _ => false
termination_by structural v => v

/-- Elementwise identity. -/
def identicalList : List Value → List Value → Bool
  | [], [] => true
  | x :: xs, y :: ys => identical x y && identicalList xs ys
  | _, _ => false
termination_by structural vs => vs

/-- Fieldwise identity. -/
def identicalFields : List (String × Value) → List (String × Value) → Bool
  | [], [] => true
  | (k, x) :: fs, (l, y) :: gs => k = l && (identical x y && identicalFields fs gs)
  | _, _ => false
termination_by structural fs => fs

end

mutual

/-- The identity test decides equality. -/
theorem identical_iff : ∀ a b : Value, identical a b = true ↔ a = b
  | .null, b => by cases b <;> simp [identical]
  | .bool a, b => by cases b <;> simp [identical]
  | .num a, b => by cases b <;> simp [identical]
  | .str a, b => by cases b <;> simp [identical]
  | .list xs, b => by cases b <;> simp [identical, identicalList_iff xs]
  | .map fs, b => by cases b <;> simp [identical, identicalFields_iff fs]

/-- The identity test decides equality of lists. -/
theorem identicalList_iff : ∀ xs ys : List Value, identicalList xs ys = true ↔ xs = ys
  | [], ys => by cases ys <;> simp [identicalList]
  | x :: xs, ys => by
    cases ys <;> simp [identicalList, identical_iff x, identicalList_iff xs]

/-- The identity test decides equality of fields. -/
theorem identicalFields_iff :
    ∀ fs gs : List (String × Value), identicalFields fs gs = true ↔ fs = gs
  | [], gs => by cases gs <;> simp [identicalFields]
  | (k, x) :: fs, gs => by
    cases gs <;>
      simp [identicalFields, identical_iff x, identicalFields_iff fs, Prod.ext_iff, and_assoc]

end

instance : DecidableEq Value := fun a b =>
  decidable_of_iff (identical a b = true) (identical_iff a b)

/-! ## Equality -/

mutual

/-- Equality of documents: the same shape, the same names, and equal leaves. -/
def same : Value → Value → Bool
  | .null, .null => true
  | .bool a, .bool b => a = b
  | .num a, .num b => a.same b
  | .str a, .str b => a = b
  | .list xs, .list ys => sameList xs ys
  | .map fs, .map gs => sameFields fs gs
  | _, _ => false
termination_by structural v => v

/-- Elementwise equality of lists. -/
def sameList : List Value → List Value → Bool
  | [], [] => true
  | x :: xs, y :: ys => same x y && sameList xs ys
  | _, _ => false
termination_by structural vs => vs

/-- Equality of maps: the same names in the same order, with equal values. -/
def sameFields : List (String × Value) → List (String × Value) → Bool
  | [], [] => true
  | (k, x) :: fs, (l, y) :: gs => k = l && (same x y && sameFields fs gs)
  | _, _ => false
termination_by structural fs => fs

end

/-- The equality of conditions and keys: numbers by value, everything else as documents. -/
def agrees : Value → Value → Bool
  | .num a, .num b => a.agrees b
  | a, b => a.same b

end Value

end KeyedQuery
