import KeyedQuery.Expression.Parser
import KeyedQuery.StableSort

/-!
# Update expressions

An update text has the sections `SET`, `REMOVE` and `ADD`, in any order and number, each a list
of actions. `UpdateAction.applyAll` carries actions out: assignments and additions in the order
written, then all removals at once, which is to say from the last path to the first, so that no
removal moves a list position that another one names.
-/

namespace KeyedQuery

/-- One change to a row. -/
inductive UpdateAction where
  /-- Put a value at a path. -/
  | set (path : Path) (v : Value)
  /-- Drop what is at a path. -/
  | remove (path : Path)
  /-- Add a number to the one at a path, which counts as zero if it is no number. -/
  | add (path : Path) (amount : Value)
deriving DecidableEq

namespace UpdateAction

/-! ## Parsing -/

/-- The sections of an update. -/
inductive Section where
  | set | remove | add
deriving DecidableEq

/-- The section that a word opens. -/
def Section.ofWord? (w : String) : Option Section :=
  if sameWord w "SET" then some .set
  else if sameWord w "REMOVE" then some .remove
  else if sameWord w "ADD" then some .add
  else none

/-- The section that the expression opens here. -/
def sectionAt? : List Token → Option Section
  | .word w :: _ => Section.ofWord? w
  | _ => none

open Expression in
/-- Read the action of a section behind its path. -/
def parseAction (attributes : Attributes) (place : Option Section) (path : Path)
    (tokens : List Token) : Checked (UpdateAction × List Token) :=
  match place with
  | some .set => do
    let rest ← expect (.comparator .eq) tokens
    let (v, rest) ← parseValue attributes rest
    .ok (.set path v, rest)
  | some .remove => .ok (.remove path, tokens)
  | some .add => do
    let (v, rest) ← parseValue attributes tokens
    .ok (.add path v, rest)
  | none => .error .missingSection

open Expression in
/-- Read the actions of an update. The bound is on their number and that of the section words;
each takes a token. -/
def parseActions (attributes : Attributes) :
    Nat → Option Section → List Token → Checked (List UpdateAction)
  | _, _, [] => .ok []
  | 0, _, _ :: _ => .error .tooDeep
  | bound + 1, place, tokens =>
    match sectionAt? tokens with
    | some place => parseActions attributes bound (some place) tokens.tail
    | none => do
      let (path, rest) ← parsePath attributes tokens
      let (action, rest) ← parseAction attributes place path rest
      let rest := if rest.head? = some .comma then rest.tail else rest
      let more ← parseActions attributes bound place rest
      .ok (action :: more)

/-- Read a whole text as an update. -/
def parse (attributes : Attributes) (text : String) :
    Checked (List UpdateAction) := do
  let tokens ← Token.scan text
  parseActions attributes (tokens.length + 1) none tokens

/-! ## Applying -/

/-- Put a value at a path of a row. -/
def setIn (item : Item) (path : Path) (v : Value) : Checked Item :=
  match Value.setAt? v path (.map item) with
  | some (.map fields) => .ok fields
  | _ => .error .invalidPath

/-- Drop what is at a path of a row. -/
def removeIn (item : Item) (path : Path) : Item :=
  match Value.removeAt path (.map item) with
  | .map fields => fields
  | _ => item

/-- The number at a path of a row, as binary64; zero if there is none. -/
def numberAt (item : Item) (path : Path) : Binary64 :=
  match Value.follow? path (.map item) with
  | some (.num n) => n.toBinary64
  | _ => Binary64.ofInt 0

/-- Carry out an assignment or an addition. -/
def apply (item : Item) : UpdateAction → Checked Item
  | .set path v => setIn item path v
  | .remove _ => .ok item
  | .add path (.num amount) =>
    match (numberAt item path).add? amount.toBinary64 with
    | some sum => setIn item path (.num (Number.ofBinary64 sum))
    | none => .error .notFinite
  | .add _ _ => .error .notNumeric

/-- The path that an action removes. -/
def removal? : UpdateAction → Option Path
  | .remove path => some path
  | _ => none

/-- Drop what is at several paths, all of them read before anything is dropped. -/
def removeAll (item : Item) (paths : List Path) : Item :=
  (stableSort (fun p q => Path.compare p q = .gt) paths).foldl removeIn item

/-- Carry out all actions. -/
def applyAll (item : Item) (actions : List UpdateAction) : Checked Item := do
  let item ← actions.foldlM apply item
  .ok (removeAll item (actions.filterMap removal?))

end UpdateAction

/-- The row after an update text. -/
def Item.update (attributes : Attributes) (text : String) (item : Item) :
    Checked Item := do
  let actions ← UpdateAction.parse attributes text
  UpdateAction.applyAll item actions

end KeyedQuery
