import KeyedQuery.Document.Basic

/-!
# Decoding records

A record is written as a map of its fields or as a list of them in the declared order.
`Document.slots?` brings both to one shape: for each declared field the document written for
it, if any. Fields that are not declared are skipped, a declared field written twice and a list
with too many elements are errors.

The decoders of single fields say what absence and null mean: `required` admits neither,
`defaulted` replaces absence only, and `optional` takes both for nothing.
-/

namespace KeyedQuery

namespace Document

/-- The documents written under a name. -/
def written (fields : List (Option String × Document)) (name : String) : List Document :=
  fields.filterMap fun (n, d) => if n = some name then some d else none

/-- For each declared field of a record, the document written for it. -/
def slots? (names : List String) : Document → Option (List (Option Document))
  | .map fields =>
    if fields.all (fun (name, _) => name.isSome) ∧
        names.all (fun name => (written fields name).length ≤ 1) then
      some (names.map fun name => (written fields name).head?)
    else
      none
  | .list xs =>
    if xs.length ≤ names.length then
      some (names.mapIdx fun i _ => xs[i]?)
    else
      none
  | _ => none

section Slots

variable {α : Type}

/-- A field that must be written. -/
def required (decode : Document → Option α) : Option Document → Option α
  | some d => decode d
  | none => none

/-- A field that takes a default when it is not written. -/
def defaulted (value : α) (decode : Document → Option α) : Option Document → Option α
  | some d => decode d
  | none => some value

/-- A field that may be left out or null. -/
def optional (decode : Document → Option α) : Option Document → Option (Option α)
  | none => some none
  | some .null => some none
  | some d => (decode d).map some

/-- A list of decoded elements. -/
def listOf? (decode : Document → Option α) : Document → Option (List α)
  | .list xs => xs.mapM decode
  | _ => none

/-- One of a set of named constants: its name, or a map from that name to null. -/
def constant? (constants : List (String × α)) : Document → Option α
  | .str s => constants.lookup s
  | .map [(some s, .null)] => constants.lookup s
  | _ => none

end Slots

/-- A text. -/
def text? : Document → Option String
  | .str s => some s
  | _ => none

/-- An integer from zero up to a bound, which is excluded. -/
def natBelow? (bound : Nat) : Document → Option Nat
  | .num (.int n) => if 0 ≤ n ∧ n < bound then some n.toNat else none
  | _ => none

/-- A size or a count: an unsigned integer of 64 bits. -/
def size? : Document → Option Nat :=
  natBelow? (Nat.pow 2 64)

end Document

end KeyedQuery
