import KeyedQuery.Fetch.Retry
import KeyedQuery.Grouping

/-!
# Fetching pages

`FetchPolicy.collect` follows the pages of a query or a scan and gathers their rows up to a
limit; `FetchPolicy.count` adds up the counts of the pages. Both stop at the last page, and at
the latest when the pages that a fetch may take are used up.

A fetch without page limit follows pages as long as there are any. How far it does so is a
number too, the horizon, so that every fetch ends; a table of fewer rows than the horizon never
reaches it, since every page but the last covers at least one row.
-/

namespace KeyedQuery

/-- What fetches are held to. -/
structure FetchPolicy where
  /-- How requests are repeated. -/
  retry : RetryConfig
  /-- The pages that may follow the first one. -/
  furtherPages : Nat
  /-- What a fetch that needs more pages ends with. -/
  exhausted : Fault

/-- The policy of a configuration. Without page limit a fetch follows pages up to a horizon. -/
def Config.fetchPolicy (c : Config) (horizon : Nat) : FetchPolicy :=
  match c.pageMode with
  | .throw => ⟨c.retry, c.maxPages - 1, .pageLimit c.maxPages⟩
  | .unbounded => ⟨c.retry, horizon, .endlessFetch horizon⟩

namespace PageRequest

/-- The request for the page behind a key. -/
def resumeFrom (p : PageRequest) (key : Item) : PageRequest :=
  { p with start := some key }

/-- The request with a limit of what is still missing; without limit the request's own stays. -/
def forMissing (p : PageRequest) (limit : Option Nat) (collected : Nat) : PageRequest :=
  match limit with
  | some n => { p with limit := some (n - collected) }
  | none => p

/-- The request for numbers of rows only. -/
def counting (p : PageRequest) : PageRequest :=
  { p with countOnly := true }

end PageRequest

namespace FetchPolicy

/-- Send a request for a page. -/
def page (policy : FetchPolicy) (p : PageRequest) : Run Page :=
  policy.retry.request (.page p)

/-- The rows that have been collected are as many as wanted. -/
def reached (limit : Option Nat) (items : List Item) : Bool :=
  match limit with
  | some n => n ≤ items.length
  | none => false

/-- What follows a page whose rows have been collected: the pages behind its last key, unless the
limit is reached or there is none. -/
def goOn (limit : Option Nat) (items : List Item) (last : Option Item)
    (more : Item → Run (List Item)) : Run (List Item) :=
  if reached limit items then
    pure (takeAtMost limit items)
  else
    match last with
    | none => pure items
    | some key => more key

/-- Collect rows behind those that have been collected, from a page and the given number of
pages after it. -/
def collectFrom (policy : FetchPolicy) (limit : Option Nat) (collected : List Item)
    (p : PageRequest) : Nat → Run (List Item)
  | 0 => do
    let page ← policy.page (p.forMissing limit collected.length)
    goOn limit (collected ++ page.items) page.last fun _ => throw policy.exhausted
  | further + 1 => do
    let page ← policy.page (p.forMissing limit collected.length)
    goOn limit (collected ++ page.items) page.last fun key =>
      policy.collectFrom limit (collected ++ page.items) (p.resumeFrom key) further

/-- The rows of all pages of a request, up to a limit. A limit of zero sends nothing. -/
def collect (policy : FetchPolicy) (p : PageRequest) (limit : Option Nat) : Run (List Item) :=
  if limit = some 0 then
    pure []
  else
    policy.collectFrom limit [] p policy.furtherPages

/-- Add the counts of a page and the given number of pages after it. -/
def countFrom (policy : FetchPolicy) (total : Nat) (p : PageRequest) : Nat → Run Nat
  | 0 => do
    let page ← policy.page p
    match page.last with
    | none => pure (total + page.count)
    | some _ => throw policy.exhausted
  | further + 1 => do
    let page ← policy.page p
    match page.last with
    | none => pure (total + page.count)
    | some key => policy.countFrom (total + page.count) (p.resumeFrom key) further

/-- The number of rows on all pages of a request. -/
def count (policy : FetchPolicy) (p : PageRequest) : Run Nat :=
  policy.countFrom 0 p.counting policy.furtherPages

end FetchPolicy

end KeyedQuery
