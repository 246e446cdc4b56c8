import KeyedQuery.Value.Order
import KeyedQuery.Value.Text
import KeyedQuery.Config
import KeyedQuery.Stats
import KeyedQuery.Catalog.Document
import KeyedQuery.Query.Document
import KeyedQuery.Expression.Update
import KeyedQuery.Patch
import KeyedQuery.Plan.Document
import KeyedQuery.Plan.Filter
import KeyedQuery.Query.Rows
import KeyedQuery.Store.Memory
import KeyedQuery.Store.Document
import KeyedQuery.Transaction.Basic
import KeyedQuery.Loader.Schedule
import KeyedQuery.Proofs.Patch.Roundtrip
import KeyedQuery.Proofs.Database.Reads
import KeyedQuery.Proofs.Transaction.Commit
import KeyedQuery.Proofs.Transaction.Answers
import KeyedQuery.Proofs.Store.Walks
import KeyedQuery.Proofs.Database.Windows
import KeyedQuery.Proofs.Database.Joins
import KeyedQuery.Proofs.Database.Counts
import KeyedQuery.Proofs.Store.Transactions
import KeyedQuery.Proofs.Transaction.Invariants
import KeyedQuery.Proofs.Loader.Runs
import KeyedQuery.Proofs.Plan.Sources
import KeyedQuery.Proofs.Transaction.Transparency
import KeyedQuery.Proofs.Database.Updates
import KeyedQuery.Proofs.Store.Unique
import KeyedQuery.Proofs.Transaction.Deletions
import KeyedQuery.Proofs.Loader.Outcomes
import KeyedQuery.Proofs.Plan.Evaluation
import KeyedQuery.Proofs.Database.Members
import KeyedQuery.Proofs.Database.Repetition
import KeyedQuery.Proofs.Transaction.History
import KeyedQuery.Proofs.Transaction.Refusals
import KeyedQuery.Proofs.Fetch.Deletions
import KeyedQuery.Proofs.Database.Sorting
import KeyedQuery.Proofs.Parties
import KeyedQuery.Proofs.Query.Sorting
import KeyedQuery.Proofs.Patch.Integers
import KeyedQuery.Proofs.Transaction.Neighbours
import KeyedQuery.Proofs.Operations
import KeyedQuery.Proofs.Transaction.Restaging
import KeyedQuery.Proofs.Plan.KeyMatches
import KeyedQuery.Proofs.Plan.Dependence
import KeyedQuery.Proofs.Database.UpdateFrame
import KeyedQuery.Proofs.Database.Deletes
import KeyedQuery.Proofs.Fetch.Rounds
import KeyedQuery.Proofs.Fetch.Turns
import KeyedQuery.Proofs.Expression.Parsing
import KeyedQuery.Proofs.Patch.Removals
import KeyedQuery.Proofs.Database.Spelling
import KeyedQuery.Proofs.Database.Projection
import KeyedQuery.Proofs.Identification
import KeyedQuery.Proofs.Traffic.Counters
