import KeyedQuery.Fetch.Batch
import KeyedQuery.Proofs.Conduct
import KeyedQuery.Proofs.Fetch.Pages

/-!
# What fetching sends and how it fails

To fetch keys is to send batches of them, and to collect or count rows is to send a request for one page after
another. Either ends with a fault of the store, or because the rounds or the pages are used up
(`RetryConfig.staysIn_batchGet`, `FetchPolicy.staysIn_collect`, `FetchPolicy.staysIn_count`).
-/

namespace KeyedQuery

open Run (StaysIn)

variable {φ : Request → Prop} {E : Fault → Prop}

theorem RetryConfig.staysIn_batchGet (retry : RetryConfig) {table : String}
    (hφ : ∀ batch, φ (.batchGet table batch)) (hstore : ∀ fault, E (.store fault))
    (hrounds : ∀ remaining attempts, E (.unprocessedKeys remaining attempts)) (keys : List Item) :
    StaysIn φ E (retry.batchGet table keys) := by
  have hbatch : ∀ left rounds batch, StaysIn φ E (retry.batchAfter table rounds batch left) := by
    intro left
    induction left with
    | zero =>
      intro rounds batch
      unfold batchAfter
      refine (StaysIn.request retry (hφ batch) hstore).bind fun answer => ?_
      split
      · exact .pure _
      · exact .throw (hrounds _ _)
    | succ left ih =>
      intro rounds batch
      unfold batchAfter
      refine (StaysIn.request retry (hφ batch) hstore).bind fun answer => ?_
      split
      · exact .pure _
      · exact (StaysIn.count _ _).bind fun _ => (StaysIn.wait _).bind fun _ =>
          (ih _ _).bind fun _ => .pure _
  exact (StaysIn.mapM fun batch _ => hbatch _ 0 batch).bind fun _ => .pure _

namespace FetchPolicy

variable {policy : FetchPolicy}

theorem staysIn_goOn {limit : Option Nat} {items : List Item} {last : Option Item}
    {more : Item → Run (List Item)}
    (hmore : ∀ key, reached limit items = false → StaysIn φ E (more key)) :
    StaysIn φ E (goOn limit items last more) := by
  unfold goOn
  split
  · exact .pure _
  · rename_i hopen
    cases last with
    | none => exact .pure _
    | some key => exact hmore key (by simpa using hopen)

/-- A collection asks for pages as long as the limit is not reached. -/
theorem staysIn_collect (q : PageRequest) (limit : Option Nat)
    (hφ : ∀ (start : Option Item) (collected : List Item), reached limit collected = false →
      φ (.page (PageRequest.forMissing { q with start } limit collected.length)))
    (hstore : ∀ fault, E (.store fault)) (hpages : E policy.exhausted) :
    StaysIn φ E (policy.collect q limit) := by
  have hfrom : ∀ (further : Nat) (start : Option Item) (collected : List Item),
      reached limit collected = false →
      StaysIn φ E (policy.collectFrom limit collected { q with start } further) := by
    intro further
    induction further with
    | zero =>
      intro start collected hopen
      exact (StaysIn.request _ (hφ start collected hopen) hstore).bind fun page =>
        staysIn_goOn fun _ _ => .throw hpages
    | succ further ih =>
      intro start collected hopen
      exact (StaysIn.request _ (hφ start collected hopen) hstore).bind fun page =>
        staysIn_goOn fun key hopen => ih (some key) _ hopen
  rw [collect]
  split
  · exact .pure _
  · rename_i hpositive
    refine hfrom _ q.start [] ?_
    rw [← Bool.not_eq_true, ← missing_eq_zero_iff]
    simpa using hpositive

/-- A count asks for the pages of a request, for their numbers only. -/
theorem staysIn_count (q : PageRequest)
    (hφ : ∀ start, φ (.page { q.counting with start })) (hstore : ∀ fault, E (.store fault))
    (hpages : E policy.exhausted) : StaysIn φ E (policy.count q) := by
  have hfrom : ∀ (further total : Nat) (start : Option Item),
      StaysIn φ E (policy.countFrom total { q.counting with start } further) := by
    intro further
    induction further with
    | zero =>
      intro total start
      refine (StaysIn.request _ (hφ start) hstore).bind fun page => ?_
      split
      · exact .pure _
      · exact .throw hpages
    | succ further ih =>
      intro total start
      refine (StaysIn.request _ (hφ start) hstore).bind fun page => ?_
      split
      · exact .pure _
      · exact ih _ _
  exact hfrom _ _ q.start

end FetchPolicy

end KeyedQuery
