import KeyedQuery.Fetch.Retry
import KeyedQuery.Value.Text

/-!
# Fetching by key

`RetryConfig.batchGet` fetches the rows of some keys. Equal keys are sent once, in batches of as
many keys as the store takes. Keys that the store leaves unprocessed are sent again after a
growing wait, in as many rounds as a request has attempts.
-/

namespace KeyedQuery

namespace RetryConfig

/-- Fetch the rows of one batch of keys after some rounds, in the given number of rounds more. -/
def batchAfter (retry : RetryConfig) (table : String) (rounds : Nat) (keys : List Item)
    (left : Nat) : Run (List Item) := do
  let answer : BatchAnswer ← retry.request (.batchGet table keys)
  if answer.unprocessed.isEmpty then
    pure answer.items
  else
    match left with
    | 0 => throw (.unprocessedKeys answer.unprocessed.length (rounds + 1))
    | left + 1 =>
      Run.count .unprocessedRetries 1
      Run.ofDialogue (Dialogue.wait (retry.delay rounds))
      let more ← retry.batchAfter table (rounds + 1) answer.unprocessed left
      pure (answer.items ++ more)

/-- Keys without repetition, in order. -/
def distinctKeys (keys : List Item) : List Item :=
  distinctBy (fun key => (Value.map key).groupKey) keys

/-- The rows of keys. Keys without a row are left out; no keys send nothing. -/
def batchGet (retry : RetryConfig) (table : String) (keys : List Item) : Run (List Item) := do
  let parts ← (chunksOf maxBatchKeys (distinctKeys keys)).mapM fun batch =>
    retry.batchAfter table 0 batch retry.repetitions
  pure parts.flatten

end RetryConfig

end KeyedQuery
