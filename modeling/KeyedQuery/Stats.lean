import KeyedQuery.Value.Basic

/-!
# Operation counters

`Stats` counts what the library did since it started, in 64-bit words that wrap around.
-/

namespace KeyedQuery

/-- The events that are counted. -/
inductive Counter where
  /-- A find was carried out. -/
  | finds
  /-- A count was carried out. -/
  | counts
  /-- A page of a query was requested. -/
  | queryRequests
  /-- A page of a scan was requested. -/
  | scanRequests
  /-- A batch of keys was requested. -/
  | batchGetRequests
  /-- A request was sent again after a transient fault. -/
  | transientRetries
  /-- A batch was sent again for its unprocessed keys. -/
  | unprocessedRetries
  /-- A row was dropped by the filter in memory. -/
  | rowsFiltered
  /-- A loader batch was dispatched and fetched, or failed. -/
  | loaderFlushes
  /-- A transaction was sent and accepted. -/
  | transactionsCommitted
  /-- A single row was put, updated or deleted. -/
  | writes
deriving DecidableEq

namespace Counter

/-- All counters with their names. -/
def named : List (String × Counter) :=
  [("finds", .finds), ("counts", .counts), ("query_requests", .queryRequests),
    ("scan_requests", .scanRequests), ("batch_get_requests", .batchGetRequests),
    ("transient_retries", .transientRetries), ("unprocessed_retries", .unprocessedRetries),
    ("rows_filtered", .rowsFiltered), ("loader_flushes", .loaderFlushes),
    ("transactions_committed", .transactionsCommitted), ("writes", .writes)]

/-- The counter of a name. -/
def ofName? (name : String) : Option Counter :=
  named.lookup name

end Counter

/-- The state of all counters. -/
structure Stats where
  finds : UInt64 := 0
  counts : UInt64 := 0
  queryRequests : UInt64 := 0
  scanRequests : UInt64 := 0
  batchGetRequests : UInt64 := 0
  transientRetries : UInt64 := 0
  unprocessedRetries : UInt64 := 0
  rowsFiltered : UInt64 := 0
  loaderFlushes : UInt64 := 0
  transactionsCommitted : UInt64 := 0
  writes : UInt64 := 0
deriving DecidableEq

namespace Stats

/-- The value of one counter. -/
def get (s : Stats) : Counter → UInt64
  | .finds => s.finds
  | .counts => s.counts
  | .queryRequests => s.queryRequests
  | .scanRequests => s.scanRequests
  | .batchGetRequests => s.batchGetRequests
  | .transientRetries => s.transientRetries
  | .unprocessedRetries => s.unprocessedRetries
  | .rowsFiltered => s.rowsFiltered
  | .loaderFlushes => s.loaderFlushes
  | .transactionsCommitted => s.transactionsCommitted
  | .writes => s.writes

/-- Add to one counter. -/
def add (s : Stats) (n : UInt64) : Counter → Stats
  | .finds => { s with finds := s.finds + n }
  | .counts => { s with counts := s.counts + n }
  | .queryRequests => { s with queryRequests := s.queryRequests + n }
  | .scanRequests => { s with scanRequests := s.scanRequests + n }
  | .batchGetRequests => { s with batchGetRequests := s.batchGetRequests + n }
  | .transientRetries => { s with transientRetries := s.transientRetries + n }
  | .unprocessedRetries => { s with unprocessedRetries := s.unprocessedRetries + n }
  | .rowsFiltered => { s with rowsFiltered := s.rowsFiltered + n }
  | .loaderFlushes => { s with loaderFlushes := s.loaderFlushes + n }
  | .transactionsCommitted => { s with transactionsCommitted := s.transactionsCommitted + n }
  | .writes => { s with writes := s.writes + n }

/-- Adding to a counter changes that counter and no other. -/
theorem get_add (s : Stats) (n : UInt64) (c d : Counter) :
    (s.add n c).get d = if c = d then s.get d + n else s.get d := by
  cases c <;> cases d <;> rfl

/-- The counters under their names. -/
def toValue (s : Stats) : Value :=
  .map (Fields.ofList (Counter.named.map fun (name, c) => (name, .ofNat (s.get c).toNat)))

end Stats

end KeyedQuery
