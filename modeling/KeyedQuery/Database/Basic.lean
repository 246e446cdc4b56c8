import KeyedQuery.Plan.Rows

/-!
# Databases

A `Database` is a catalog and a configuration, through which a store is used by model. This
module holds its reads: `findMany`, `findOne` and `count`. They are dialogues, so they can be run
against any store, alone or next to others.
-/

namespace KeyedQuery

/-- What reads and writes by model need to know. -/
structure Database where
  /-- Where the models lie. -/
  resolver : Resolver
  /-- The settings. -/
  config : Config := {}
  /-- The pages to which a fetch without page limit is followed. -/
  horizon : Nat := Nat.pow 2 64

namespace Database

/-- What fetches are held to. -/
def policy (db : Database) : FetchPolicy :=
  db.config.fetchPolicy db.horizon

/-- Send a request, and repeat it as configured after transient faults. -/
def request (db : Database) (r : Request) : Run r.Answer :=
  db.config.retry.request r

/-- Plan a query. Nothing is sent. -/
def plan (db : Database) (q : FindQuery) : Except Fault Plan :=
  Plan.ofQuery db.resolver db.config q

/-- The rows of a query. -/
def findMany (db : Database) (q : FindQuery) : Run (List Item) := do
  let p ← Run.ofExcept (db.plan q)
  p.rows db.policy

/-- The first row of a query. -/
def findOne (db : Database) (q : FindQuery) : Run (Option Item) := do
  let rows ← db.findMany { q with limit := some 1 }
  pure rows.head?

/-- The number of rows that satisfy a query's conditions. -/
def count (db : Database) (q : FindQuery) : Run Nat := do
  let p ← Run.ofExcept (db.plan q)
  p.countRows db.policy

end Database

end KeyedQuery
