import KeyedQuery.Config
import KeyedQuery.Dialogue

/-!
# Repeated requests

`Run.request` sends a request and repeats it, after a growing wait, as long as the store answers
with a transient fault and the configured attempts are not used up. Pages and batches are
counted each time they are sent, and every repetition is counted.
-/

namespace KeyedQuery

/-- The counter of the times a request of this kind is sent; writes are counted elsewhere. -/
def Request.counter? : Request → Option Counter
  | .page p =>
    match p.access with
    | .scan => some .scanRequests
    | .query _ _ _ => some .queryRequests
  | .batchGet _ _ => some .batchGetRequests
  | .transact _ _ | .put _ _ | .update _ _ _ _ _ | .delete _ _ => none

/-- Count a request by its kind and send it. -/
def Dialogue.sendCounted (r : Request) : Dialogue (Except StoreFault r.Answer) :=
  match r.counter? with
  | some c => .tally c 1 (.send r)
  | none => .send r

namespace RetryConfig

/-- Send a request after some repetitions, and again up to the given number of times. -/
def sendAfter (retry : RetryConfig) (r : Request) (repetitions : Nat) : Nat → Run r.Answer
  | 0 => do
    match ← Run.ofDialogue (Dialogue.sendCounted r) with
    | .ok answer => pure answer
    | .error fault => throw (.store fault)
  | left + 1 => do
    match ← Run.ofDialogue (Dialogue.sendCounted r) with
    | .ok answer => pure answer
    | .error fault =>
      if fault.isTransient then
        Run.count .transientRetries 1
        Run.ofDialogue (Dialogue.wait (retry.delay repetitions))
        retry.sendAfter r (repetitions + 1) left
      else
        throw (.store fault)

/-- The repetitions that the configured attempts leave after the first. -/
def repetitions (retry : RetryConfig) : Nat :=
  retry.maxAttempts.toNat - 1

/-- Send a request, and repeat it as configured after transient faults. -/
def request (retry : RetryConfig) (r : Request) : Run r.Answer :=
  retry.sendAfter r 0 retry.repetitions

end RetryConfig

end KeyedQuery
