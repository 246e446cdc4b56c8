/-!
# Parts of texts

Whether a text begins with, ends with or contains another, character by character.
-/

namespace KeyedQuery

/-- A list occurs in another as consecutive elements. -/
def occursIn (part : List Char) : List Char → Bool
  | [] => part.isEmpty
  | c :: rest => part.isPrefixOf (c :: rest) || occursIn part rest

/-- A text occurs in another. -/
def hasPart (text part : String) : Bool :=
  occursIn part.toList text.toList

/-- A text begins with another. -/
def beginsWith (text part : String) : Bool :=
  part.toList.isPrefixOf text.toList

/-- A text ends with another. -/
def endsIn (text part : String) : Bool :=
  part.toList.isSuffixOf text.toList

/-- Two words are equal but for the case of ASCII letters. -/
def sameWord (a b : String) : Bool :=
  a.map Char.toLower = b.map Char.toLower

end KeyedQuery
