import KeyedQuery.Expression.Placeholders
import KeyedQuery.Fault

/-!
# Store requests

What a store can be asked, and the type of its answer to each request. Queries and scans are one
kind of request, a page of rows, and differ in how the rows are reached. Every page may end with
the key from which the next one goes on.
-/

namespace KeyedQuery

/-- The most keys of one batch get. -/
def maxBatchKeys : Nat := 100

/-- The most writes of one transaction. -/
def maxTransactionWrites : Nat := 25

/-- How the rows of a page are reached. -/
inductive Access where
  /-- All rows of the table. -/
  | scan
  /-- The rows that satisfy a key condition, in the order of the sort attribute of the table or
  of an index. -/
  | query (index : Option String) (keyCondition : String) (forward : Bool)
deriving DecidableEq

/-- A request for a page of rows. -/
structure PageRequest where
  table : String
  access : Access
  /-- The filter's text. -/
  filter : Option String := none
  /-- What the placeholders of both texts stand for. -/
  attributes : Attributes := {}
  /-- The most rows to look at. -/
  limit : Option Nat := none
  /-- The key behind which the page starts. -/
  start : Option Item := none
  /-- Only the number of rows is wanted. -/
  countOnly : Bool := false
deriving DecidableEq

/-- A page of rows. -/
structure Page where
  /-- The rows, unless only their number was wanted. -/
  items : List Item
  /-- The number of rows. -/
  count : Nat
  /-- The key behind which the next page starts; none after the last page. -/
  last : Option Item
deriving DecidableEq

/-- The answer to a batch get. -/
structure BatchAnswer where
  /-- The rows found. -/
  items : List Item
  /-- The keys that were not looked up. -/
  unprocessed : List Item
deriving DecidableEq

/-- One write of a transaction. -/
inductive Write where
  /-- Store a row. -/
  | put (table : String) (item : Item)
  /-- Change the row of a key. -/
  | update (table : String) (key : Item) (expression : String) (attributes : Attributes)
  /-- Drop the row of a key. -/
  | delete (table : String) (key : Item)
deriving DecidableEq

/-- A row agrees with every attribute of a key. -/
def Item.hasKey (item key : Item) : Bool :=
  key.all fun (name, v) => (Fields.get? item name).any fun w => w.agrees v

namespace Write

/-- The table that is written. -/
def table : Write → String
  | .put table _ | .update table _ _ _ | .delete table _ => table

/-- The row put, or the key of the row changed or dropped. -/
def row : Write → Item
  | .put _ item => item
  | .update _ key _ _ | .delete _ key => key

/-- The write is to the row of a key. -/
def targets (w : Write) (key : Item) : Bool :=
  w.row.hasKey key

end Write

/-- What a store can be asked. -/
inductive Request where
  /-- A page of rows. -/
  | page (p : PageRequest)
  /-- The rows of some keys. -/
  | batchGet (table : String) (keys : List Item)
  /-- Several writes, all or none. A repetition carries the same token. -/
  | transact (writes : List Write) (token : String)
  /-- Store a row. -/
  | put (table : String) (item : Item)
  /-- Change the row of a key, and return it if that is wanted. -/
  | update (table : String) (key : Item) (expression : String) (attributes : Attributes)
      (returnUpdated : Bool)
  /-- Drop the row of a key. -/
  | delete (table : String) (key : Item)
deriving DecidableEq

/-- What a store answers to a request that it carries out. -/
@[reducible] def Request.Answer : Request → Type
  | .page _ => Page
  | .batchGet _ _ => BatchAnswer
  | .transact _ _ => Unit
  | .put _ _ => Unit
  | .update _ _ _ _ _ => Option Item
  | .delete _ _ => Unit

end KeyedQuery
