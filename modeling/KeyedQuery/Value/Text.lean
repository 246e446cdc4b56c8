import KeyedQuery.Grouping
import KeyedQuery.Value.Basic

/-!
# Document text and group keys

`Value.text` writes a value as a compact JSON document. Fields are written in the order in
which they are kept, which is ascending; only quotes, backslashes and control characters are
escaped.

`Value.groupKey` is the text by which values are grouped and deduplicated: a tag for numbers,
texts and everything else, followed by the value written out, where integral numbers lose
their fraction so that `7` and `7.0` fall together.
-/

namespace KeyedQuery

/-- A lower-case hexadecimal digit. -/
def hexDigit (n : Nat) : Char :=
  Nat.digitChar n

/-- A character as it stands between the quotes of a document text. -/
def escapeChar (c : Char) : List Char :=
  if c = '"' then ['\\', '"']
  else if c = '\\' then ['\\', '\\']
  else if c = '\n' then ['\\', 'n']
  else if c = '\r' then ['\\', 'r']
  else if c = '\t' then ['\\', 't']
  else if c.toNat = 8 then ['\\', 'b']
  else if c.toNat = 12 then ['\\', 'f']
  else if c.toNat < 32 then ['\\', 'u', '0', '0', hexDigit (c.toNat / 16), hexDigit (c.toNat % 16)]
  else [c]

/-- A text in quotes, as characters. -/
def quoteChars (s : String) : List Char :=
  '"' :: (s.toList.flatMap escapeChar ++ ['"'])

namespace Value

mutual

/-- A value as a compact document, as characters. -/
def chars : Value → List Char
  | .null => ['n', 'u', 'l', 'l']
  | .bool true => ['t', 'r', 'u', 'e']
  | .bool false => ['f', 'a', 'l', 's', 'e']
  | .num n => n.text.toList
  | .str s => quoteChars s
  | .list xs => '[' :: (elementChars xs ++ [']'])
  | .map fs => '{' :: (fieldChars fs ++ ['}'])
termination_by structural v => v

/-- List elements with commas between them. -/
def elementChars : List Value → List Char
  | [] => []
  | x :: xs => chars x ++ (if xs.isEmpty then [] else [',']) ++ elementChars xs
termination_by structural xs => xs

/-- Fields with commas between them. -/
def fieldChars : List (String × Value) → List Char
  | [] => []
  | (name, x) :: fs =>
    quoteChars name ++ [':'] ++ chars x ++ (if fs.isEmpty then [] else [',']) ++ fieldChars fs
termination_by structural fs => fs

end

/-- A value as a compact document. -/
def text (v : Value) : String :=
  String.ofList v.chars

/-- The text by which values are grouped and deduplicated. -/
def groupKey : Value → String
  | .num n => "n:" ++ n.groupText
  | .str s => "s:" ++ s
  | v => "j:" ++ v.text

/-- The first of each group of values, in order. -/
def distinct (values : List Value) : List Value :=
  distinctBy groupKey values

/-- The candidates of a list condition: a list gives its distinct elements, any other value
itself. -/
def candidates : Value → List Value
  | .list xs => distinct xs
  | v => [v]

end Value

end KeyedQuery
