import KeyedQuery.Fault
import KeyedQuery.Text.Alphanumeric
import KeyedQuery.Text.Extending

/-!
# Expression tokens

The store takes conditions and updates as text. `Token.scan` cuts such a text into tokens in
one pass: a word, a list index or a comparison sign of two characters is pending until the
character that ends it. `ExpressionFault` lists every way in which an expression can be wrong,
`ExpressionFault.toStoreFault` is how the store reports it.
-/

namespace KeyedQuery

/-- The comparisons of conditions. -/
inductive Comparator where
  | eq | ne | lt | le | gt | ge
deriving DecidableEq

/-- The tokens of expressions. -/
inductive Token where
  /-- A name placeholder, with its sign. -/
  | name (text : String)
  /-- A value placeholder, with its sign. -/
  | value (text : String)
  /-- A bare word. -/
  | word (text : String)
  /-- A list index in brackets. -/
  | index (i : Nat)
  | leftParen
  | rightParen
  | comma
  | dot
  | comparator (op : Comparator)
deriving DecidableEq

/-- The ways in which an expression can be wrong. -/
inductive ExpressionFault where
  | unclosedIndex
  | badIndex (text : String)
  | unexpectedCharacter (c : Char)
  | expectedToken (expected : Token) (found : Option Token)
  | expectedName (found : Option Token)
  | expectedValue (found : Option Token)
  | expectedComparator (found : Option Token)
  | undefinedName (token : String)
  | undefinedValue (token : String)
  | trailingTokens (text : String)
  | missingSection
  | invalidPath
  | notNumeric
  | notFinite
  /-- The expression was nested deeper than its length admits; no expression is. -/
  | tooDeep
deriving DecidableEq

/-- The comparison as it is shown in messages. -/
def Comparator.shown : Comparator → String
  | .eq => "Eq"
  | .ne => "Ne"
  | .lt => "Lt"
  | .le => "Le"
  | .gt => "Gt"
  | .ge => "Ge"

namespace Token

/-- The word of a token as it is shown in messages. -/
def shownWord (text : String) : String :=
  "(\"" ++ String.ofList (text.toList.flatMap shownChar) ++ "\")"

/-- The token as it is shown in messages. -/
def shown : Token → String
  | .name text => "Name" ++ shownWord text
  | .value text => "Value" ++ shownWord text
  | .word text => "Ident" ++ shownWord text
  | .index i => "Index(" ++ toString i ++ ")"
  | .leftParen => "LParen"
  | .rightParen => "RParen"
  | .comma => "Comma"
  | .dot => "Dot"
  | .comparator op => "Cmp(" ++ op.shown ++ ")"

/-- The next token, or the end of the expression, as it is shown in messages. -/
def shownOption : Option Token → String
  | some t => "Some(" ++ t.shown ++ ")"
  | none => "None"

end Token

/-- A result, or what is wrong with the expression. -/
abbrev Checked := Except ExpressionFault

namespace ExpressionFault

/-- The fault in words. -/
def message : ExpressionFault → String
  | .unclosedIndex => "Unclosed list index"
  | .badIndex text => "Bad list index '" ++ text ++ "'"
  | .unexpectedCharacter c => "Unexpected character '" ++ String.singleton c ++ "'"
  | .expectedToken expected found =>
    "Expected " ++ expected.shown ++ ", found " ++ Token.shownOption found
  | .expectedName found => "Expected attribute name, found " ++ Token.shownOption found
  | .expectedValue found => "Expected value placeholder, found " ++ Token.shownOption found
  | .expectedComparator found => "Expected comparator, found " ++ Token.shownOption found
  | .undefinedName token => "Undefined name placeholder " ++ token
  | .undefinedValue token => "Undefined value placeholder " ++ token
  | .trailingTokens text => "Trailing tokens in '" ++ text ++ "'"
  | .missingSection => "Update expression must start with SET, REMOVE or ADD"
  | .invalidPath => "Invalid document path"
  | .notNumeric => "ADD requires a numeric operand"
  | .notFinite => "ADD produced a non-finite value"
  | .tooDeep => "Expression is nested too deep"

/-- The code under which a store rejects invalid requests. -/
def validationCode : String := "ValidationException"

/-- The fault as a store reports it. -/
def toStoreFault (f : ExpressionFault) : StoreFault :=
  .service validationCode f.message

end ExpressionFault

/-! ## Scanning -/

namespace Token

/-- A character of words and placeholders. -/
def isWordChar (c : Char) : Bool :=
  isAlphanumeric c || c = '_'

/-- The kinds of words, told apart by their first character. -/
inductive WordKind where
  | name | value | bare
deriving DecidableEq

/-- The token of a word. -/
def ofWord : WordKind → String → Token
  | .name => .name
  | .value => .value
  | .bare => .word

/-- What has been read of a token whose end is not in sight. -/
inductive Pending where
  /-- Nothing. -/
  | idle
  /-- A word, its last character first. -/
  | word (kind : WordKind) (spelled : List Char)
  /-- A list index behind its bracket, the last character first. -/
  | index (spelled : List Char)
  /-- A sign that may go on. -/
  | less
  /-- A sign that may go on. -/
  | greater
deriving DecidableEq

/-- A list index: decimal digits, with or without a plus sign, below `2 ^ 64`. -/
def readIndex? (text : List Char) : Option Nat :=
  let digits := if text.head? = some '+' then text.tail else text
  if digits.isEmpty ∨ ¬digits.all Char.isDigit then
    none
  else
    let n := digits.foldl (fun n c => 10 * n + (c.toNat - '0'.toNat)) 0
    if n < Nat.pow 2 64 then some n else none

/-- Read a character that starts something new. -/
def start (c : Char) : Checked (Pending × List Token) :=
  match c with
  | ' ' | '\t' | '\n' => .ok (.idle, [])
  | '(' => .ok (.idle, [.leftParen])
  | ')' => .ok (.idle, [.rightParen])
  | ',' => .ok (.idle, [.comma])
  | '.' => .ok (.idle, [.dot])
  | '=' => .ok (.idle, [.comparator .eq])
  | '[' => .ok (.index [], [])
  | '<' => .ok (.less, [])
  | '>' => .ok (.greater, [])
  | '#' => .ok (.word .name ['#'], [])
  | ':' => .ok (.word .value [':'], [])
  | c => if isWordChar c then .ok (.word .bare [c], []) else .error (.unexpectedCharacter c)

/-- Read a character that starts something new behind a finished token. -/
def startAfter (t : Token) (c : Char) : Checked (Pending × List Token) :=
  (start c).map fun (p, ts) => (p, t :: ts)

/-- Read one character. -/
def step (p : Pending) (c : Char) : Checked (Pending × List Token) :=
  match p with
  | .idle => start c
  | .word kind spelled =>
    if isWordChar c then
      .ok (.word kind (c :: spelled), [])
    else
      startAfter (ofWord kind (String.ofList spelled.reverse)) c
  | .index spelled =>
    if c = ']' then
      match readIndex? spelled.reverse with
      | some i => .ok (.idle, [.index i])
      | none => .error (.badIndex (String.ofList spelled.reverse))
    else
      .ok (.index (c :: spelled), [])
  | .less =>
    if c = '>' then .ok (.idle, [.comparator .ne])
    else if c = '=' then .ok (.idle, [.comparator .le])
    else startAfter (.comparator .lt) c
  | .greater =>
    if c = '=' then .ok (.idle, [.comparator .ge]) else startAfter (.comparator .gt) c

/-- The token that the end of the text finishes. -/
def finish : Pending → Checked (List Token)
  | .idle => .ok []
  | .word kind spelled => .ok [ofWord kind (String.ofList spelled.reverse)]
  | .index _ => .error .unclosedIndex
  | .less => .ok [.comparator .lt]
  | .greater => .ok [.comparator .gt]

/-- Read the rest of a text behind what is pending. -/
def scanFrom (p : Pending) : List Char → Checked (List Token)
  | [] => finish p
  | c :: rest => do
    let (p, tokens) ← step p c
    let more ← scanFrom p rest
    .ok (tokens ++ more)

/-- The tokens of a text. -/
def scan (text : String) : Checked (List Token) :=
  scanFrom .idle text.toList

end Token

end KeyedQuery
