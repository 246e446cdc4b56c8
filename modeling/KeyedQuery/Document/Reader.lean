import KeyedQuery.Document.Basic

/-!
# Reading documents

`Document.read?` reads one JSON text to its end. Integers that fit 64 bits, signed or unsigned,
stay exact; `-0`, larger integers and anything with a point or an exponent are binary64.

The readers return what they read with the rest of the text. Those that call each other take a
bound on the nesting of calls; the length of the text bounds it, because every call consumes a
character before the next.
-/

namespace KeyedQuery

namespace Document

/-- The blanks between tokens. -/
def isBlank (c : Char) : Bool :=
  c = ' ' ∨ c = '\t' ∨ c = '\n' ∨ c = '\r'

/-- The text from its first character that is no blank. -/
def skipBlanks (text : List Char) : List Char :=
  text.dropWhile isBlank

/-! ## Texts -/

/-- The value of a hexadecimal digit of either case. -/
def hexValue? (c : Char) : Option Nat :=
  if '0' ≤ c ∧ c ≤ '9' then some (c.toNat - '0'.toNat)
  else if 'a' ≤ c ∧ c ≤ 'f' then some (c.toNat - 'a'.toNat + 10)
  else if 'A' ≤ c ∧ c ≤ 'F' then some (c.toNat - 'A'.toNat + 10)
  else none

/-- The code unit of four hexadecimal digits. -/
def codeUnit? (a b c d : Char) : Option Nat := do
  let a ← hexValue? a
  let b ← hexValue? b
  let c ← hexValue? c
  let d ← hexValue? d
  some (((a * 16 + b) * 16 + c) * 16 + d)

/-- The code point of an escape of one letter. -/
def escapeCode? (c : Char) : Option Nat :=
  if c = '"' ∨ c = '\\' ∨ c = '/' then some c.toNat
  else if c = 'b' then some 8
  else if c = 'f' then some 12
  else if c = 'n' then some 10
  else if c = 'r' then some 13
  else if c = 't' then some 9
  else none

/-- Read a text from behind its opening quote as code points; an escaped half of a surrogate
pair stands for itself. -/
def readCodes : List Char → Option (List Nat × List Char)
  | [] => none
  | '"' :: rest => some ([], rest)
  | '\\' :: 'u' :: a :: b :: c :: d :: rest => do
    let code ← codeUnit? a b c d
    let (codes, rest) ← readCodes rest
    some (code :: codes, rest)
  | '\\' :: c :: rest => do
    let code ← escapeCode? c
    let (codes, rest) ← readCodes rest
    some (code :: codes, rest)
  | c :: rest =>
    if c.toNat < 32 then
      none
    else do
      let (codes, rest) ← readCodes rest
      some (c.toNat :: codes, rest)

/-- Join surrogate pairs; a half without its partner makes the text unreadable. -/
def joinSurrogates : List Nat → Option (List Char)
  | [] => some []
  | [code] => if 0xD800 ≤ code ∧ code < 0xE000 then none else some [Char.ofNat code]
  | code :: next :: rest =>
    if 0xD800 ≤ code ∧ code < 0xDC00 then
      if 0xDC00 ≤ next ∧ next < 0xE000 then
        (joinSurrogates rest).map
          (Char.ofNat (0x10000 + (code - 0xD800) * 0x400 + (next - 0xDC00)) :: ·)
      else
        none
    else if 0xDC00 ≤ code ∧ code < 0xE000 then
      none
    else
      (joinSurrogates (next :: rest)).map (Char.ofNat code :: ·)

/-- Read a text from behind its opening quote; `none` inside for one no text can hold. -/
def readText (text : List Char) : Option (Option String × List Char) := do
  let (codes, rest) ← readCodes text
  some ((joinSurrogates codes).map String.ofList, rest)

/-! ## Numbers -/

/-- The natural number that digits spell. -/
def digitsNat (digits : List Char) : Nat :=
  digits.foldl (fun n c => 10 * n + (c.toNat - '0'.toNat)) 0

/-- Read at least one digit. -/
def readDigits (text : List Char) : Option (List Char × List Char) :=
  match text.takeWhile Char.isDigit with
  | [] => none
  | digits => some (digits, text.dropWhile Char.isDigit)

/-- Read the digits behind a point, if there is one. -/
def readFraction : List Char → Option (Option (List Char) × List Char)
  | '.' :: rest => (readDigits rest).map fun (digits, rest) => (some digits, rest)
  | text => some (none, text)

/-- Read an exponent, if there is one. -/
def readExponent (text : List Char) : Option (Option Int × List Char) :=
  match text with
  | c :: rest =>
    if c = 'e' ∨ c = 'E' then
      match rest with
      | '-' :: rest =>
        (readDigits rest).map fun (digits, rest) => (some (-(digitsNat digits : Int)), rest)
      | '+' :: rest => (readDigits rest).map fun (digits, rest) => (some (digitsNat digits), rest)
      | rest => (readDigits rest).map fun (digits, rest) => (some (digitsNat digits), rest)
    else
      some (none, text)
  | [] => some (none, text)

/-- A binary64 leaf, unreadable when it is too large. -/
def realLeaf (negative : Bool) (d : Decimal) : Document :=
  match d.toBinary64? negative with
  | some x => .num (.real x)
  | none => .unreadable

/-- The leaf of a number from its parts. -/
def numberLeaf (negative : Bool) (whole : List Char) (fraction : Option (List Char))
    (exponent : Option Int) : Document :=
  match fraction, exponent with
  | none, none =>
    let n := digitsNat whole
    if negative ∧ 0 < n ∧ n ≤ Nat.pow 2 63 then .num (.int (-(n : Int)))
    else if ¬negative ∧ n < Nat.pow 2 64 then .num (.int n)
    else realLeaf negative ⟨n, 0⟩
  | _, _ =>
    let places := fraction.getD []
    realLeaf negative ⟨digitsNat (whole ++ places), exponent.getD 0 - places.length⟩

/-- Read a number. The whole part has no leading zero. -/
def readNumber (text : List Char) : Option (Document × List Char) := do
  let (negative, rest) := match text with
    | '-' :: rest => (true, rest)
    | _ => (false, text)
  let (whole, rest) ← readDigits rest
  if whole.head? = some '0' ∧ 1 < whole.length then
    none
  else
    let (fraction, rest) ← readFraction rest
    let (exponent, rest) ← readExponent rest
    some (numberLeaf negative whole fraction exponent, rest)

/-! ## Nodes -/

/-- Read a word if the text starts with it. -/
def word? (word : String) (text : List Char) : Option (List Char) :=
  if word.toList.isPrefixOf text then some (text.drop word.length) else none

mutual

/-- Read one document from the start of a text. -/
def readNode : Nat → List Char → Option (Document × List Char)
  | 0, _ => none
  | bound + 1, text =>
    match skipBlanks text with
    | [] => none
    | '"' :: rest => do
      let (s, rest) ← readText rest
      some (match s with | some s => .str s | none => .unreadable, rest)
    | '[' :: rest =>
      match skipBlanks rest with
      | ']' :: rest => some (.list [], rest)
      | rest => (readElements bound rest).map fun (xs, rest) => (.list xs, rest)
    | '{' :: rest =>
      match skipBlanks rest with
      | '}' :: rest => some (.map [], rest)
      | rest => (readMembers bound rest).map fun (fs, rest) => (.map fs, rest)
    | 'n' :: rest => (word? "ull" rest).map fun rest => (.null, rest)
    | 't' :: rest => (word? "rue" rest).map fun rest => (.bool true, rest)
    | 'f' :: rest => (word? "alse" rest).map fun rest => (.bool false, rest)
    | rest => readNumber rest

/-- Read the elements of a list that is not empty, and its closing bracket. -/
def readElements : Nat → List Char → Option (List Document × List Char)
  | 0, _ => none
  | bound + 1, text => do
    let (d, rest) ← readNode bound text
    match skipBlanks rest with
    | ',' :: rest =>
      let (ds, rest) ← readElements bound rest
      some (d :: ds, rest)
    | ']' :: rest => some ([d], rest)
    | _ => none

/-- Read the fields of a map that is not empty, and its closing brace. -/
def readMembers : Nat → List Char → Option (List (Option String × Document) × List Char)
  | 0, _ => none
  | bound + 1, text => do
    let rest ← match skipBlanks text with
      | '"' :: rest => some rest
      | _ => none
    let (name, rest) ← readText rest
    let rest ← match skipBlanks rest with
      | ':' :: rest => some rest
      | _ => none
    let (d, rest) ← readNode bound rest
    match skipBlanks rest with
    | ',' :: rest =>
      let (fs, rest) ← readMembers bound rest
      some ((name, d) :: fs, rest)
    | '}' :: rest => some ([(name, d)], rest)
    | _ => none

end

/-- Read a whole text as one document. -/
def read? (text : String) : Option Document := do
  let chars := text.toList
  let (d, rest) ← readNode (chars.length + 1) chars
  if (skipBlanks rest).isEmpty then some d else none

end Document

end KeyedQuery
