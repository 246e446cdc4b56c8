import KeyedQuery.Expression.Path
import KeyedQuery.Expression.Placeholders
import KeyedQuery.Fault
import KeyedQuery.Value.Text

/-!
# Patches

A `Patch` is an update text with its placeholder tables. `Patch.between` writes the one that
turns a row into another: what is gone is removed, a number that became another number is
changed by adding the difference, and anything else that changed is put in place. Maps are
compared name by name and lists position by position, down to `Patch.maxDepth` levels.
-/

namespace KeyedQuery

/-- Why no patch could be written. -/
inductive PatchFault where
  /-- The rows do not differ. -/
  | unchanged
  /-- The rows are nested too deep. -/
  | tooDeep
  /-- The difference of two numbers is out of range. -/
  | notFinite
deriving DecidableEq

/-- An update text with its placeholder tables. -/
structure Patch where
  /-- The text. -/
  expression : String
  /-- What its placeholders stand for. -/
  attributes : Attributes
deriving DecidableEq

/-- One difference between two rows. -/
inductive Change where
  /-- Put a value at a path. -/
  | set (path : Path) (v : Value)
  /-- Drop what is at a path. -/
  | remove (path : Path)
  /-- Add a number to the one at a path. -/
  | add (path : Path) (difference : Number)
deriving DecidableEq

namespace Patch

/-- The levels of nesting that are compared; an attribute of the row is the first. -/
def maxDepth : Nat := 64

end Patch

/-- The fault as an operation reports it. -/
def PatchFault.toFault : PatchFault → Fault
  | .unchanged => .invalidUpdate "Update produced no changes"
  | .tooDeep => .invalidUpdate ("Update nesting exceeds " ++ toString Patch.maxDepth ++ " levels")
  | .notFinite => .invalidUpdate "Numeric difference is not finite"

namespace Change

/-! ## Finding changes -/

/-- The number to add to the first to get the second: exact where both and their difference fit
64 bits with a sign, rounded otherwise. -/
def difference (prev next : Number) : Except PatchFault Number :=
  let exact := do
    let a ← prev.signed64?
    let b ← next.signed64?
    (Number.int (b - a)).signed64?
  match exact with
  | some n => .ok (.int n)
  | none =>
    match next.toBinary64.sub? prev.toBinary64 with
    | some x => .ok (.real x)
    | none => .error .notFinite

/-- The names that occur in either map, in order. -/
def eitherNames (prev next : Fields Value) : List String :=
  Fields.names (Fields.ofList (prev ++ next))

/-- The changes that turn the first attribute, if any, into the second, if any. The first
argument is the number of levels that may still be entered. -/
def between : Nat → Path → Option Value → Option Value → Except PatchFault (List Change)
  | 0, _, _, _ => .error .tooDeep
  | room + 1, path, prev, next =>
    match prev, next with
    | none, none => .ok []
    | some _, none => .ok [.remove path]
    | some (.map a), some (.map b) => do
      let parts ← (eitherNames a b).mapM fun k =>
        between room (path ++ [.key k]) (Fields.get? a k) (Fields.get? b k)
      .ok parts.flatten
    | some (.list a), some (.list b) => do
      let parts ← (List.range (max a.length b.length)).mapM fun i =>
        between room (path ++ [.index i]) a[i]? b[i]?
      .ok parts.flatten
    | some (.num a), some (.num b) =>
      if a.agrees b then .ok [] else do
        let n ← difference a b
        .ok [.add path n]
    | some v, some w => if v.agrees w then .ok [] else .ok [.set path w]
    | none, some w => .ok [.set path w]

/-- The changes that turn a row into another. -/
def betweenItems (prev next : Item) : Except PatchFault (List Change) := do
  let parts ← (eitherNames prev next).mapM fun k =>
    between Patch.maxDepth [.key k] (Fields.get? prev k) (Fields.get? next k)
  .ok parts.flatten

/-! ## Writing changes -/

/-- The point before the next step, if that is a name. -/
def joint : Path → String
  | .key _ :: _ => "."
  | _ => ""

/-- A path with a placeholder for each name. -/
def writePath : Path → StateM Placeholders String
  | [] => pure ""
  | .index i :: rest => do
    let more ← writePath rest
    pure ("[" ++ toString i ++ "]" ++ joint rest ++ more)
  | .key k :: rest => do
    let token ← Placeholders.name k
    let more ← writePath rest
    pure (token ++ joint rest ++ more)

/-- A value's placeholder, shared among equal values. -/
def writeValue (v : Value) : StateM Placeholders String :=
  Placeholders.sharedValue v.text v

/-- The texts of an update's sections. -/
structure Sections where
  sets : List String := []
  removes : List String := []
  adds : List String := []

/-- Write one change behind those already written. -/
def write (s : Sections) : Change → StateM Placeholders Sections
  | .set path v => do
    let place ← writePath path
    let token ← writeValue v
    pure { s with sets := s.sets ++ [place ++ " = " ++ token] }
  | .remove path => do
    let place ← writePath path
    pure { s with removes := s.removes ++ [place] }
  | .add path n => do
    let place ← writePath path
    let token ← writeValue (.num n)
    pure { s with adds := s.adds ++ [place ++ " " ++ token] }

/-- A section's keyword and actions, if it has any. -/
def sectionText (keyword : String) (actions : List String) : List String :=
  if actions.isEmpty then [] else [keyword ++ " " ++ ", ".intercalate actions]

/-- The sections that are not empty, in their fixed order. -/
def Sections.text (s : Sections) : String :=
  " ".intercalate
    (sectionText "SET" s.sets ++ sectionText "REMOVE" s.removes ++ sectionText "ADD" s.adds)

end Change

namespace Patch

/-- The patch of a list of changes. -/
def ofChanges (changes : List Change) : Patch :=
  let (sections, tokens) := (changes.foldlM Change.write {}).run {}
  ⟨sections.text, tokens.attributes⟩

/-- The patch that turns a row into another. -/
def between (prev next : Item) : Except PatchFault Patch := do
  let changes ← Change.betweenItems prev next
  if changes.isEmpty then .error .unchanged else .ok (ofChanges changes)

end Patch

end KeyedQuery
