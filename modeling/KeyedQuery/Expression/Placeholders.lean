import KeyedQuery.Value.Basic

/-!
# Placeholders

Expressions never spell attribute names or values out: they hold placeholders, and tables say
what those stand for. `Attributes` are the tables that go with a request. `Placeholders` is the
state of handing tokens out while an expression is being written: a name keeps its one token,
each value gets a new one unless it is shared on purpose.
-/

namespace KeyedQuery

/-- What the placeholders of a request stand for. -/
structure Attributes where
  /-- Attribute names by name token. -/
  names : Fields String := []
  /-- Values by value token. -/
  values : Fields Value := []
deriving DecidableEq

/-- The tokens handed out so far. -/
structure Placeholders where
  /-- The names that have a token, in the order of their tokens. -/
  names : List String := []
  /-- The values that have a token, in the order of their tokens. -/
  values : List Value := []
  /-- The tokens of shared values, by the key under which they are shared. -/
  shared : Fields String := []
deriving DecidableEq

namespace Placeholders

/-- The name token of a number. -/
def nameToken (i : Nat) : String := "#f" ++ toString i

/-- The value token of a number. -/
def valueToken (i : Nat) : String := ":v" ++ toString i

/-- The token of an attribute name. -/
def name (field : String) : StateM Placeholders String := fun p =>
  match p.names.idxOf? field with
  | some i => (nameToken i, p)
  | none => (nameToken p.names.length, { p with names := p.names ++ [field] })

/-- A new token for a value. -/
def value (v : Value) : StateM Placeholders String := fun p =>
  (valueToken p.values.length, { p with values := p.values ++ [v] })

/-- The token shared by every value with the same key. -/
def sharedValue (key : String) (v : Value) : StateM Placeholders String := fun p =>
  match Fields.get? p.shared key with
  | some token => (token, p)
  | none =>
    let (token, p) := value v p
    (token, { p with shared := Fields.insert p.shared key token })

/-- New tokens for several values, with commas between them. -/
def valueList (vs : List Value) : StateM Placeholders String := do
  let tokens ← vs.mapM value
  pure (", ".intercalate tokens)

/-- No token has been handed out. -/
def isEmpty (p : Placeholders) : Bool :=
  p.names.isEmpty && p.values.isEmpty

/-- The tables of the tokens handed out. -/
def attributes (p : Placeholders) : Attributes where
  names := Fields.ofList (p.names.mapIdx fun i field => (nameToken i, field))
  values := Fields.ofList (p.values.mapIdx fun i v => (valueToken i, v))

end Placeholders

/-- The tables as a value. -/
def Attributes.toValue (a : Attributes) : Value :=
  .map (Fields.ofList
    [("names", .map (Fields.mapValues .str a.names)), ("values", .map a.values)])

end KeyedQuery
