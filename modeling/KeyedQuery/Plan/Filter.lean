import KeyedQuery.Plan.Strategy

/-!
# Key conditions and filters

The texts of a request: the key condition of a match, and the filter of the conditions it did
not consume. Both draw their placeholders from one table. A filter is written only if the store
can evaluate every condition and all of them are required; otherwise rows are filtered in memory.
-/

namespace KeyedQuery

/-- A key condition, and the conditions that it does not express. -/
structure KeyCondition where
  /-- The index to query; none for the table itself. -/
  index : Option String
  /-- The condition's text. -/
  expression : String
  /-- The other conditions, in order. -/
  remaining : List NormalizedCondition

/-- The equality of a field with a value. -/
def partitionCondition (field : String) (v : Value) : StateM Placeholders String := do
  let name ← Placeholders.name field
  let token ← Placeholders.value v
  pure (name ++ " = " ++ token)

/-- The membership of a field in some values. -/
def memberFilter (field : String) (values : List Value) : StateM Placeholders String := do
  let name ← Placeholders.name field
  Operator.membership name values

/-- The elements whose positions satisfy a test. -/
def keepPositions {α : Type} (keep : Nat → Bool) (xs : List α) : List α :=
  (xs.mapIdx fun i x => if keep i then some x else none).filterMap id

namespace KeyMatch

/-- The conditions at positions that the match does not use. -/
def remaining (m : KeyMatch) (conditions : List NormalizedCondition) :
    List NormalizedCondition :=
  keepPositions (fun i => i ≠ m.partition ∧ some i ≠ m.sort) conditions

/-- The text of the equalities a match uses: one on the partition attribute, and one on the sort
attribute if the match has it. Nothing if its positions are outside the conditions. -/
def expression? (m : KeyMatch) (conditions : List NormalizedCondition) :
    StateM Placeholders (Option String) :=
  match conditions[m.partition]?, m.sort.map fun i => conditions[i]? with
  | some p, none => some <$> partitionCondition p.field p.value
  | some p, some (some s) => do
    let first ← partitionCondition p.field p.value
    let second ← partitionCondition s.field s.value
    pure (some (first ++ " AND " ++ second))
  | _, _ => pure none

/-- The key condition of a match. -/
def keyCondition? (m : KeyMatch) (conditions : List NormalizedCondition) :
    StateM Placeholders (Option KeyCondition) := do
  let text ← m.expression? conditions
  pure (text.map fun expression => ⟨m.index, expression, m.remaining conditions⟩)

end KeyMatch

/-- The texts of conditions, one by one, up to one that cannot be written. -/
def fragments? : List NormalizedCondition → StateM Placeholders (Option (List String))
  | [] => pure (some [])
  | c :: rest => do
    let name ← Placeholders.name c.field
    match ← c.operator.fragment? name c.value with
    | none => pure none
    | some fragment =>
      let more ← fragments? rest
      pure (more.map (fragment :: ·))

/-- The filter of conditions that the store can evaluate and that are all required. -/
def filterExpression? (conditions : List NormalizedCondition) :
    StateM Placeholders (Option String) := do
  if conditions.isEmpty ∨ conditions.any (fun c => c.clientOnly ∨ c.connector = .or) then
    pure none
  else
    let fragments ← fragments? conditions
    pure (fragments.map (" AND ".intercalate ·))

end KeyedQuery
