import KeyedQuery.Expression.Placeholders
import KeyedQuery.Expression.Predicate

/-!
# Parsing conditions

`Predicate.parse` reads a condition text with its placeholder tables. `OR` binds weakest, then
`AND`, then `NOT`; both binary words associate to the left, and keywords may be written in any
case. A path starts with a name placeholder or a bare word and goes on with further names and
list indexes; values only ever come from placeholders.

The parsers that call each other take a bound on the nesting of calls. Every three nested calls
consume a token, so a bound of three per token, and three more, is never reached.
-/

namespace KeyedQuery

namespace Expression

/-- Read one given token. -/
def expect (expected : Token) : List Token → Checked (List Token)
  | t :: rest =>
    if t = expected then .ok rest else .error (.expectedToken expected (some t))
  | [] => .error (.expectedToken expected none)

/-- The expression goes on with a keyword. -/
def atKeyword (keyword : String) : List Token → Bool
  | .word w :: _ => sameWord w keyword
  | _ => false

/-! ## Names, paths and values -/

/-- The attribute name that a token stands for. -/
def nameOf (attributes : Attributes) : Option Token → Checked String
  | some (.name token) =>
    match Fields.get? attributes.names token with
    | some name => .ok name
    | none => .error (.undefinedName token)
  | some (.word name) => .ok name
  | found => .error (.expectedName found)

/-- The value that a token stands for. -/
def valueOf (attributes : Attributes) : Option Token → Checked Value
  | some (.value token) =>
    match Fields.get? attributes.values token with
    | some v => .ok v
    | none => .error (.undefinedValue token)
  | found => .error (.expectedValue found)

/-- Read a value. -/
def parseValue (attributes : Attributes) (tokens : List Token) : Checked (Value × List Token) :=
  (valueOf attributes tokens.head?).map fun v => (v, tokens.tail)

/-- Read the steps of a path behind its first name. -/
def parseSteps (attributes : Attributes) : List Token → Checked (Path × List Token)
  | .dot :: t :: rest => do
    let name ← nameOf attributes (some t)
    let (steps, rest) ← parseSteps attributes rest
    .ok (.key name :: steps, rest)
  | [.dot] => .error (.expectedName none)
  | .index i :: rest => do
    let (steps, rest) ← parseSteps attributes rest
    .ok (.index i :: steps, rest)
  | tokens => .ok ([], tokens)

/-- Read a path. -/
def parsePath (attributes : Attributes) (tokens : List Token) : Checked (Path × List Token) := do
  let name ← nameOf attributes tokens.head?
  let (steps, rest) ← parseSteps attributes tokens.tail
  .ok (.key name :: steps, rest)

/-- Read the further values of a list, each behind a comma. -/
def parseMoreValues (attributes : Attributes) : List Token → Checked (List Value × List Token)
  | .comma :: t :: rest => do
    let v ← valueOf attributes (some t)
    let (vs, rest) ← parseMoreValues attributes rest
    .ok (v :: vs, rest)
  | [.comma] => .error (.expectedValue none)
  | tokens => .ok ([], tokens)

/-! ## Conditions -/

/-- Read the arguments of a function condition: a path and a value in parentheses. -/
def parseArguments (attributes : Attributes) (tokens : List Token) :
    Checked ((Path × Value) × List Token) := do
  let rest ← expect .leftParen tokens
  let (path, rest) ← parsePath attributes rest
  let rest ← expect .comma rest
  let (v, rest) ← parseValue attributes rest
  let rest ← expect .rightParen rest
  .ok ((path, v), rest)

/-- Read a condition that starts with a path: a membership or a comparison. -/
def parseTest (attributes : Attributes) (tokens : List Token) :
    Checked (Predicate × List Token) := do
  let (path, rest) ← parsePath attributes tokens
  if atKeyword "IN" rest then
    let rest ← expect .leftParen rest.tail
    let (v, rest) ← parseValue attributes rest
    let (vs, rest) ← parseMoreValues attributes rest
    let rest ← expect .rightParen rest
    .ok (.isIn path (v :: vs), rest)
  else
    match rest with
    | .comparator op :: rest => do
      let (v, rest) ← parseValue attributes rest
      .ok (.compare path op v, rest)
    | rest => .error (.expectedComparator rest.head?)

mutual

/-- Read a disjunction. -/
def parseDisjunction (attributes : Attributes) :
    Nat → List Token → Checked (Predicate × List Token)
  | 0, _ => .error .tooDeep
  | bound + 1, tokens => do
    let (left, rest) ← parseConjunction attributes bound tokens
    parseMoreDisjuncts attributes bound left rest

/-- Read the further operands of a disjunction. -/
def parseMoreDisjuncts (attributes : Attributes) :
    Nat → Predicate → List Token → Checked (Predicate × List Token)
  | 0, _, _ => .error .tooDeep
  | bound + 1, left, tokens =>
    if atKeyword "OR" tokens then do
      let (right, rest) ← parseConjunction attributes bound tokens.tail
      parseMoreDisjuncts attributes bound (.or left right) rest
    else
      .ok (left, tokens)

/-- Read a conjunction. -/
def parseConjunction (attributes : Attributes) :
    Nat → List Token → Checked (Predicate × List Token)
  | 0, _ => .error .tooDeep
  | bound + 1, tokens => do
    let (left, rest) ← parseUnary attributes bound tokens
    parseMoreConjuncts attributes bound left rest

/-- Read the further operands of a conjunction. -/
def parseMoreConjuncts (attributes : Attributes) :
    Nat → Predicate → List Token → Checked (Predicate × List Token)
  | 0, _, _ => .error .tooDeep
  | bound + 1, left, tokens =>
    if atKeyword "AND" tokens then do
      let (right, rest) ← parseUnary attributes bound tokens.tail
      parseMoreConjuncts attributes bound (.and left right) rest
    else
      .ok (left, tokens)

/-- Read a negation, a condition in parentheses, or a single test. -/
def parseUnary (attributes : Attributes) :
    Nat → List Token → Checked (Predicate × List Token)
  | 0, _ => .error .tooDeep
  | bound + 1, tokens =>
    if atKeyword "NOT" tokens then do
      let (inner, rest) ← parseUnary attributes bound tokens.tail
      .ok (.not inner, rest)
    else if tokens.head? = some .leftParen then do
      let (inner, rest) ← parseDisjunction attributes bound tokens.tail
      let rest ← expect .rightParen rest
      .ok (inner, rest)
    else if atKeyword "begins_with" tokens then do
      let ((path, v), rest) ← parseArguments attributes tokens.tail
      .ok (.beginsWith path v, rest)
    else if atKeyword "contains" tokens then do
      let ((path, v), rest) ← parseArguments attributes tokens.tail
      .ok (.contains path v, rest)
    else
      parseTest attributes tokens

end

end Expression

/-- Read a whole text as a condition. -/
def Predicate.parse (attributes : Attributes) (text : String) :
    Checked Predicate := do
  let tokens ← Token.scan text
  let (p, rest) ← Expression.parseDisjunction attributes (3 * tokens.length + 3) tokens
  if rest.isEmpty then .ok p else .error (.trailingTokens text)

end KeyedQuery
