import KeyedQuery.Proofs.Fetch.Limits
import KeyedQuery.Proofs.Plan.Rows
import KeyedQuery.Proofs.Plan.Traversal

/-!
# Windows of a plan

A plan without joins collects the pages of some requests, one request after another up to a common
limit, or looks up keys without regard to the limit (`Plan.fetch_eq_collectInTurn`,
`Plan.fetch_eq_of_batchGet`). In a calm store this succeeds exactly if the pages of each request suffice
for what the requests before it have left missing (`Plan.value_collectInTurn`).

The window of a query changes nothing else in its plan (`Plan.ofQuery_window`).
-/

namespace KeyedQuery

/-- The rows that qualify for a request, in order, and which of them pass its filter. -/
structure Selection where
  rows : List Item
  passes : Item → Bool

/-- The rows that a request finds. -/
def Selection.matching (s : Selection) : List Item :=
  s.rows.filter s.passes

/-- What a request selects in a memory. -/
def Memory.Selects (m : Memory) (q : PageRequest) (s : Selection) : Prop :=
  ∃ t, Fields.get? m.tables q.table = some t ∧ t.Answers q s.rows s.passes

/-- The rows of the table that the request is to have different keys. -/
def Memory.KeysApart (m : Memory) (q : PageRequest) : Prop :=
  ∀ t, Fields.get? m.tables q.table = some t → t.KeysApart t.items

variable {m : Memory} {policy : FetchPolicy} {requests : List PageRequest}
  {selections : List Selection}

/-! ## Requests in turn -/

/-- So many pages for each of several requests suffice to collect the matching rows that are missing,
or all there are. -/
def pagesSufficeInTurn (pageSize : Option Nat) (pages : Nat) : Option Nat → List Selection → Bool
  | _, [] => true
  | missing, s :: rest =>
    pagesSuffice pageSize s.passes pages missing s.rows &&
      pagesSufficeInTurn pageSize pages (missing.map fun n => n - s.matching.length) rest

@[simp]
theorem pagesSufficeInTurn_zero (pageSize : Option Nat) (pages : Nat) :
    ∀ selections, pagesSufficeInTurn pageSize pages (some 0) selections = true
  | [] => rfl
  | s :: rest => by
    rw [pagesSufficeInTurn, pagesSuffice_zero, Bool.true_and, Option.map_some, Nat.zero_sub,
      pagesSufficeInTurn_zero pageSize pages rest]

/-- As many pages for each request as it has qualifying rows suffice. -/
theorem pagesSufficeInTurn_of_length_le {pageSize : Option Nat} (hpageSize : pageSize ≠ some 0)
    {further : Nat} : ∀ {selections : List Selection} {missing : Option Nat},
      (∀ s ∈ selections, s.rows.length ≤ further + 1) →
      pagesSufficeInTurn pageSize (further + 1) missing selections = true
  | [], _, _ => rfl
  | s :: rest, missing, h => by
    rw [pagesSufficeInTurn, pagesSuffice_of_length_le hpageSize (h s List.mem_cons_self),
      Bool.true_and]
    exact pagesSufficeInTurn_of_length_le hpageSize fun s hs => h s (List.mem_cons_of_mem _ hs)

namespace Plan

theorem value_collectInTurn_cons (limit : Option Nat) (collected : List Item) (q : PageRequest)
    (rest : List PageRequest) :
    Run.value m.answer (collectInTurn policy limit collected (q :: rest)) =
      if FetchPolicy.reached limit collected then .ok collected
      else Run.value m.answer (policy.collect q (limit.map fun n => n - collected.length)) >>=
        fun more => Run.value m.answer (collectInTurn policy limit (collected ++ more) rest) := by
  rw [collectInTurn]
  split
  · rfl
  · exact Run.value_bind _ _

/-- In a calm store requests in turn succeed exactly if their pages suffice. They collect a beginning
of the rows that they find. -/
theorem value_collectInTurn (hcalm : m.IsCalm) (hpageSize : m.pageSize ≠ some 0)
    (limit : Option Nat) : ∀ {requests : List PageRequest} {selections : List Selection},
      List.Forall₂ m.Selects requests selections → (∀ q ∈ requests, q.IsFirst) →
      (∀ q ∈ requests, m.KeysApart q) → ∀ collected, takeAtMost limit collected = collected →
      Run.value m.answer (collectInTurn policy limit collected requests) =
        if pagesSufficeInTurn m.pageSize (policy.furtherPages + 1)
            (limit.map fun n => n - collected.length) selections then
          .ok (takeAtMost limit (collected ++ selections.flatMap Selection.matching))
        else .error policy.exhausted := by
  intro requests selections hselects
  induction hselects with
  | nil =>
    intro _ _ collected hcollected
    rw [pagesSufficeInTurn, if_pos rfl, List.flatMap_nil, List.append_nil, hcollected]
    rfl
  | @cons q s requests selections hs hrest ih =>
    intro hfirst hapart collected hcollected
    obtain ⟨t, ht, hanswers⟩ := hs
    obtain ⟨test, hperm⟩ := Table.exists_perm_of_candidates hanswers.candidates
    have hcollect := policy.value_collect (limit.map fun n => n - collected.length) hcalm hpageSize
      ht hanswers ((hapart q List.mem_cons_self t ht).of_perm hperm) (hfirst q List.mem_cons_self)
    rw [value_collectInTurn_cons]
    split
    · rename_i hreached
      rw [FetchPolicy.missing_eq_zero_iff.mpr hreached, pagesSufficeInTurn_zero, if_pos rfl,
        FetchPolicy.takeAtMost_of_reached hreached, hcollected]
    · rw [hcollect, pagesSufficeInTurn]
      cases hsuffice : pagesSuffice m.pageSize s.passes (policy.furtherPages + 1)
          (limit.map fun n => n - collected.length) s.rows with
      | false => rfl
      | true =>
        have hboth : collected ++ takeAtMost (limit.map fun n => n - collected.length) s.matching =
            takeAtMost limit (collected ++ s.matching) := by
          rw [takeAtMost_append, hcollected]
        have hleft : (limit.map fun n => n - collected.length).map
            (fun n => n - s.matching.length) =
            limit.map fun n => n - (takeAtMost limit (collected ++ s.matching)).length := by
          cases limit with
          | none => rfl
          | some n =>
            simp only [takeAtMost, List.length_take, List.length_append, Option.map_some,
              Option.some.injEq]
            omega
        have hnext := ih (fun q hq => hfirst q (List.mem_cons_of_mem _ hq))
          (fun q hq => hapart q (List.mem_cons_of_mem _ hq)) _
          (takeAtMost_takeAtMost limit (collected ++ s.matching))
        rw [takeAtMost_takeAtMost_append, List.append_assoc, ← hboth] at hnext
        rw [if_pos rfl, Bool.true_and, hleft, List.flatMap_cons, ← hboth]
        exact hnext

/-- Requests that succeed in turn without limit are taken by the store, and each succeeds by itself. -/
theorem exists_selections : ∀ {requests : List PageRequest}
    (collected : List Item) {all : List Item}, (∀ q ∈ requests, q.IsFirst) →
      Run.value m.answer (collectInTurn policy none collected requests) = .ok all →
      (∃ selections, List.Forall₂ m.Selects requests selections) ∧
        ∀ q ∈ requests, ∃ items, Run.value m.answer (policy.collect q none) = .ok items
  | [], collected, all, _, _ => ⟨⟨[], .nil⟩, by simp⟩
  | q :: requests, collected, all, hfirst, hall => by
    rw [value_collectInTurn_cons, FetchPolicy.reached, if_neg (by decide)] at hall
    obtain ⟨more, hmore, hrest⟩ := exists_of_bind_eq_ok hall
    obtain ⟨t, rows, passes, ht, hanswers⟩ :=
      policy.exists_answers_of_value_collect (hfirst q List.mem_cons_self) hmore
    obtain ⟨⟨selections, hselections⟩, hothers⟩ := exists_selections _
      (fun q hq => hfirst q (List.mem_cons_of_mem _ hq)) hrest
    refine ⟨⟨⟨rows, passes⟩ :: selections, .cons ⟨t, ht, hanswers⟩ hselections⟩, fun q' hq' => ?_⟩
    rcases List.mem_cons.mp hq' with rfl | hq'
    · exact ⟨more, hmore⟩
    · exact hothers q' hq'

/-- Requests in turn succeed if each of them does under every limit. -/
theorem exists_value_collectInTurn (limit : Option Nat) : ∀ {requests : List PageRequest}
    (collected : List Item), (∀ q ∈ requests, ∀ limit, ∃ items,
        Run.value m.answer (policy.collect q limit) = .ok items) →
      ∃ items, Run.value m.answer (collectInTurn policy limit collected requests) = .ok items
  | [], collected, _ => ⟨collected, rfl⟩
  | q :: requests, collected, h => by
    rw [value_collectInTurn_cons]
    split
    · exact ⟨collected, rfl⟩
    · obtain ⟨items, hitems⟩ :=
        h q List.mem_cons_self (limit.map fun n => n - collected.length)
      rw [hitems]
      exact exists_value_collectInTurn limit _ fun q hq => h q (List.mem_cons_of_mem _ hq)

/-- The only fault of requests that the store takes is that there are too few pages. -/
theorem value_collectInTurn_cases (limit : Option Nat) : ∀ {requests : List PageRequest}
    {selections : List Selection}, List.Forall₂ m.Selects requests selections →
      (∀ q ∈ requests, q.IsFirst) → ∀ collected,
      (∃ items, Run.value m.answer (collectInTurn policy limit collected requests) = .ok items) ∨
        Run.value m.answer (collectInTurn policy limit collected requests) =
          .error policy.exhausted
  | [], [], .nil, _, collected => .inl ⟨collected, rfl⟩
  | q :: requests, s :: selections, .cons hs hrest, hfirst, collected => by
    obtain ⟨t, ht, hanswers⟩ := hs
    rw [value_collectInTurn_cons]
    split
    · exact .inl ⟨collected, rfl⟩
    · rcases policy.value_collect_cases (limit.map fun n => n - collected.length)
        (hfirst q List.mem_cons_self) ht hanswers with ⟨items, hitems⟩ | hfault
      · rw [hitems]
        exact value_collectInTurn_cases limit hrest (fun q hq => hfirst q (List.mem_cons_of_mem _ hq))
          _
      · rw [hfault]
        exact .inr rfl

theorem asks_collectInTurn (limit : Option Nat) {requests : List PageRequest}
    (hfirst : ∀ q ∈ requests, q.IsFirst) :
    Run.Asks (Request.Within limit) (collectInTurn policy limit [] requests) :=
  (Run.Asks.composes _).collectInTurn (fun q hq _ =>
    (policy.asks_collect (hfirst q hq).limit _).mono fun _ => Request.Within.of_missing) []

/-! ## Fetching -/

variable {p : Plan}

/-- The requests whose rows a plan collects one after another. A batch get has none of them. -/
def pageRequests (p : Plan) : Except Fault (List PageRequest) :=
  match p.directives.baseStrategy with
  | .primaryKeyQuery | .secondaryIndexQuery _ => p.keyQuery.map fun q => [q]
  | .multiQuery index field => p.valueQueries index field
  | .batchGet => .ok []
  | .scan => .ok [p.scanRequest]

theorem collectInTurn_singleton (limit : Option Nat) (q : PageRequest) :
    collectInTurn policy limit [] [q] = policy.collect q limit := by
  rw [collectInTurn]
  cases limit with
  | none => simp [FetchPolicy.reached, collectInTurn]
  | some n =>
    by_cases hn : n = 0
    · simp [FetchPolicy.reached, FetchPolicy.collect, hn]
    · simp [FetchPolicy.reached, hn, collectInTurn]

theorem fetch_eq_collectInTurn (hstrategy : p.directives.baseStrategy ≠ .batchGet)
    (limit : Option Nat) : p.fetch policy limit =
      Run.ofExcept p.pageRequests >>= collectInTurn policy limit [] := by
  have hsingle : ∀ e : Except Fault PageRequest, (do
      let request ← Run.ofExcept e
      policy.collect request limit) =
        Run.ofExcept (e.map fun q => [q]) >>= collectInTurn policy limit [] := by
    intro e
    cases e with
    | error fault => rfl
    | ok q => exact (collectInTurn_singleton limit q).symm
  unfold fetch pageRequests
  cases hs : p.directives.baseStrategy with
  | primaryKeyQuery => exact hsingle _
  | secondaryIndexQuery index => exact hsingle _
  | multiQuery index field => rfl
  | batchGet => exact absurd hs hstrategy
  | scan => exact (collectInTurn_singleton limit p.scanRequest).symm

theorem fetch_eq_of_batchGet (hstrategy : p.directives.baseStrategy = .batchGet)
    (limit : Option Nat) : p.fetch policy limit = p.fetch policy none := by
  unfold fetch
  rw [hstrategy]

theorem isFirst_of_pageRequests (hrequests : p.pageRequests = .ok requests) :
    ∀ q ∈ requests, q.IsFirst ∧ q.table = p.table := by
  have hkey : ∀ requests, (p.keyQuery.map fun q => [q]) = .ok requests →
      ∀ q ∈ requests, q.IsFirst ∧ q.table = p.table := by
    intro requests hrequests q hq
    obtain ⟨query, hquery, rfl⟩ := exists_of_map_eq_ok hrequests
    obtain rfl := List.mem_singleton.mp hq
    unfold keyQuery at hquery
    split at hquery
    · obtain rfl := Except.ok.inj hquery
      exact ⟨⟨rfl, rfl, rfl⟩, rfl⟩
    · cases hquery
  unfold pageRequests at hrequests
  split at hrequests
  · exact hkey _ hrequests
  · exact hkey _ hrequests
  · unfold valueQueries at hrequests
    split at hrequests
    · obtain rfl := Except.ok.inj hrequests
      intro q hq
      obtain ⟨v, -, rfl⟩ := List.mem_map.mp hq
      exact ⟨⟨rfl, rfl, rfl⟩, rfl⟩
    · cases hrequests
  · obtain rfl := Except.ok.inj hrequests
    simp
  · obtain rfl := Except.ok.inj hrequests
    intro q hq
    obtain rfl := List.mem_singleton.mp hq
    exact ⟨⟨rfl, rfl, rfl⟩, rfl⟩

/-- No more rows qualify for a request of a plan than its table has. -/
theorem length_le_of_selects (hrequests : p.pageRequests = .ok requests)
    (hselections : List.Forall₂ m.Selects requests selections) {n : Nat}
    (htable : ∀ t, Fields.get? m.tables p.table = some t → t.items.length ≤ n) :
    ∀ s ∈ selections, s.rows.length ≤ n := by
  intro s hs
  obtain ⟨i, hi, rfl⟩ := List.getElem_of_mem hs
  have hlength := hselections.length_eq
  obtain ⟨t, ht, hanswers⟩ := hselections.get (hlength ▸ hi) hi
  obtain ⟨test, hperm⟩ := Table.exists_perm_of_candidates hanswers.candidates
  rw [(isFirst_of_pageRequests hrequests _ (List.get_mem _ _)).2] at ht
  refine le_trans ?_ (htable t ht)
  exact hperm.length_eq.trans_le (List.length_filter_le _ _)

theorem asks_fetch (p : Plan) (limit : Option Nat) :
    Run.Asks (Request.Within limit) (p.fetch policy limit) := by
  by_cases hstrategy : p.directives.baseStrategy = .batchGet
  · unfold fetch
    rw [hstrategy]
    exact (Run.Asks.ofExcept _).bind fun values =>
      (policy.retry.asks_batchGet limit _ _).bind fun items => .pure _
  · rw [fetch_eq_collectInTurn hstrategy]
    exact Run.Asks.ofExcept_bind fun requests hrequests =>
      asks_collectInTurn limit fun q hq => (isFirst_of_pageRequests hrequests q hq).1

theorem value_fetch_eq (hstrategy : p.directives.baseStrategy ≠ .batchGet)
    (hrequests : p.pageRequests = .ok requests) (limit : Option Nat) :
    Run.value m.answer (p.fetch policy limit) =
      Run.value m.answer (collectInTurn policy limit [] requests) := by
  rw [fetch_eq_collectInTurn hstrategy, Run.value_bind, Run.value_ofExcept, hrequests]
  rfl

/-- A plan that fetches all its rows has requests that the store takes. Without filters it fetches as
many as wanted, and otherwise it can only run out of pages. -/
theorem exists_requests {fetched : List Item}
    (hfetched : Run.value m.answer (p.fetch policy none) = .ok fetched) :
    ∃ requests selections, p.pageRequests = .ok requests ∧
      List.Forall₂ m.Selects requests selections ∧ ∀ limit,
        (∃ items, Run.value m.answer (p.fetch policy limit) = .ok items) ∨
          Run.value m.answer (p.fetch policy limit) = .error policy.exhausted ∧ limit ≠ none ∧
            ∃ q ∈ requests, q.filter ≠ none := by
  by_cases hstrategy : p.directives.baseStrategy = .batchGet
  · refine ⟨[], [], by rw [pageRequests, hstrategy], .nil, fun limit => .inl ⟨fetched, ?_⟩⟩
    rw [fetch_eq_of_batchGet hstrategy limit, hfetched]
  · have hall := hfetched
    rw [fetch_eq_collectInTurn hstrategy, Run.value_bind, Run.value_ofExcept] at hall
    obtain ⟨requests, hrequests, hall⟩ := exists_of_bind_eq_ok hall
    have hfirst := fun q hq => (isFirst_of_pageRequests hrequests q hq).1
    obtain ⟨⟨selections, hselections⟩, hsingle⟩ := exists_selections [] hfirst hall
    refine ⟨requests, selections, hrequests, hselections, fun limit => ?_⟩
    rw [value_fetch_eq hstrategy hrequests]
    by_cases hfilters : limit ≠ none ∧ ∃ q ∈ requests, q.filter ≠ none
    · exact (value_collectInTurn_cases limit hselections hfirst []).imp id fun h => ⟨h, hfilters⟩
    · refine .inl ?_
      rcases Option.eq_none_or_eq_some limit with rfl | ⟨n, rfl⟩
      · exact ⟨fetched, hall⟩
      · refine exists_value_collectInTurn _ [] fun q hq limit => ?_
        obtain ⟨items, hitems⟩ := hsingle q hq
        refine policy.exists_value_collect limit (hfirst q hq) ?_ hitems
        by_contra hfilter
        exact hfilters ⟨by simp, q, hq, hfilter⟩

/-- If the keys of the rows are apart, a plan that fetches all its rows fetches a limited number
exactly if the pages for them suffice. -/
theorem value_fetch (hcalm : m.IsCalm) (hpageSize : m.pageSize ≠ some 0) {fetched : List Item}
    (hfetched : Run.value m.answer (p.fetch policy none) = .ok fetched)
    (hapart : ∀ t, Fields.get? m.tables p.table = some t → t.KeysApart t.items)
    (hrequests : p.pageRequests = .ok requests)
    (hselections : List.Forall₂ m.Selects requests selections) (limit : Option Nat) :
    ∃ items, (items = takeAtMost limit fetched ∨ items = fetched) ∧
      Run.value m.answer (p.fetch policy limit) =
        if pagesSufficeInTurn m.pageSize (policy.furtherPages + 1) limit selections then .ok items
        else .error policy.exhausted := by
  by_cases hstrategy : p.directives.baseStrategy = .batchGet
  · rw [pageRequests, hstrategy] at hrequests
    obtain rfl := Except.ok.inj hrequests
    cases hselections
    refine ⟨fetched, .inr rfl, ?_⟩
    rw [fetch_eq_of_batchGet hstrategy limit, hfetched, pagesSufficeInTurn, if_pos rfl]
  · have hfirst := isFirst_of_pageRequests hrequests
    have hvalue : ∀ limit, Run.value m.answer (p.fetch policy limit) =
        if pagesSufficeInTurn m.pageSize (policy.furtherPages + 1) limit selections then
          .ok (takeAtMost limit (selections.flatMap Selection.matching))
        else .error policy.exhausted := by
      intro limit
      rw [value_fetch_eq hstrategy hrequests]
      simpa using value_collectInTurn hcalm hpageSize limit hselections
        (fun q hq => (hfirst q hq).1) (fun q hq t ht => hapart t ((hfirst q hq).2 ▸ ht)) []
        (by cases limit <;> simp [takeAtMost])
    have hall := hvalue none
    rw [hfetched] at hall
    split at hall
    · obtain rfl := Except.ok.inj hall
      exact ⟨_, .inl rfl, hvalue limit⟩
    · cases hall

/-! ## Rows -/

/-- What a plan without joins makes of the rows that it has fetched. -/
def finish (p : Plan) (fetched : List Item) : List Item :=
  p.selectRows (cutWindow p.offset p.limit (p.sortRows (p.filterRows fetched)))

theorem asks_rows (hjoins : p.joins = []) :
    Run.Asks (Request.Within p.directives.fetchLimit) (p.rows policy) :=
  (Run.Asks.composes _).rows (p.asks_fetch _) (by simp [hjoins])

/-- What is done with the rows that have been fetched needs no store. -/
theorem run_rows {σ : Type} (client : Client σ) (hjoins : p.joins = []) (w : World σ) :
    ((p.rows policy).run.run client w).1 =
      ((p.fetch policy p.directives.fetchLimit).run.run client w).1.map p.finish := by
  unfold Plan.rows
  refine Run.run_bind_eq_map (fun fetched w => ?_) w
  dsimp only
  rw [hjoins, List.zip_nil_left]
  split <;> rfl

/-! ## Planning -/

/-- The plan with another window. Fetching stops at the end of the window, unless rows have to be
filtered or sorted in memory. -/
def withWindow (p : Plan) (limit : Option Nat) (offset : Nat) : Plan :=
  { p with
    limit, offset
    directives :=
      { p.directives with
        fetchLimit :=
          if p.directives.clientFilter || p.directives.clientSort then none
          else limit.map fun l => addSizes l offset } }

/-- The window of a query does not matter for anything else in its plan. -/
theorem ofQuery_window (r : Resolver) (c : Config) (q : FindQuery) (limit offset : Option Nat) :
    ofQuery r c { q with limit, offset } =
      (ofQuery r c q).map fun p => p.withWindow limit (offset.getD 0) := by
  rw [ofQuery_eq, ofQuery_eq]
  show (partsOf r c q).map _ = _
  cases partsOf r c q <;> rfl

theorem select_of_ofQuery {r : Resolver} {c : Config} {q : FindQuery} (hp : ofQuery r c q = .ok p) :
    p.select = q.select.map (List.map (r.fieldName q.model)) :=
  (follows_of_ofQuery hp).select

/-- A plan is for the table of the model, and has no joins if the query has none. -/
theorem of_ofQuery {r : Resolver} {c : Config} {q : FindQuery} (hp : ofQuery r c q = .ok p)
    (hjoins : q.joins = []) : r.table q.model = .ok p.table ∧ p.joins = [] :=
  ⟨(follows_of_ofQuery hp).table, (follows_of_ofQuery hp).joins hjoins⟩

/-! ## Windows of rows -/

theorem selectRows_cutWindow (p : Plan) (offset : Nat) (limit : Option Nat) (rows : List Item) :
    p.selectRows (cutWindow offset limit rows) = cutWindow offset limit (p.selectRows rows) := by
  unfold selectRows
  cases p.select with
  | none => rfl
  | some select =>
    cases limit <;>
      simp only [selectFields, cutWindow, takeAtMost, List.map_take, List.map_drop]

theorem cutWindow_takeAtMost {rows : List Item} (hsize : rows.length ≤ maxSize) (offset : Nat)
    (limit : Option Nat) :
    cutWindow offset limit (takeAtMost (limit.map fun l => addSizes l offset) rows) =
      cutWindow offset limit rows := by
  cases limit with
  | none => rfl
  | some n =>
    have hwhole : rows.take (addSizes n offset) = rows.take (n + offset) := by
      rw [List.take_eq_take_iff, addSizes]
      omega
    simp only [cutWindow, takeAtMost, Option.map_some]
    rw [hwhole, List.drop_take, List.take_take, Nat.add_sub_cancel, Nat.min_self]

/-- What a plan makes of the rows that it has fetched up to its limit is the window of what it makes
of all rows. Rows that have to be filtered or sorted in memory are fetched without limit. -/
theorem finish_withWindow {limit : Option Nat} {offset : Nat} {fetched items : List Item}
    (hsize : ((p.withWindow none 0).finish fetched).length ≤ maxSize)
    (hitems : items = takeAtMost (p.withWindow limit offset).directives.fetchLimit fetched ∨
      items = fetched) :
    (p.withWindow limit offset).finish items =
      cutWindow offset limit ((p.withWindow none 0).finish fetched) := by
  have hall : (p.withWindow none 0).finish fetched =
      p.selectRows (p.sortRows (p.filterRows fetched)) := rfl
  rw [hall] at hsize ⊢
  show p.selectRows (cutWindow offset limit (p.sortRows (p.filterRows items))) = _
  rw [selectRows_cutWindow]
  by_cases hclient : (p.directives.clientFilter || p.directives.clientSort) = true
  · have hlimit : (p.withWindow limit offset).directives.fetchLimit = none := if_pos hclient
    rw [hlimit] at hitems
    obtain rfl : items = fetched := or_self_iff.mp hitems
    rfl
  · have hlimit : (p.withWindow limit offset).directives.fetchLimit =
        limit.map fun l => addSizes l offset := if_neg hclient
    obtain ⟨hfilter, hsort⟩ : p.directives.clientFilter = false ∧ p.directives.clientSort = false := by
      simpa using hclient
    have hsame : ∀ xs, p.sortRows (p.filterRows xs) = xs := by
      intro xs
      simp only [sortRows, filterRows, hfilter, hsort, Bool.false_eq_true, if_false]
      cases p.sort <;> rfl
    rw [hsame] at hsize
    have hlength : fetched.length ≤ maxSize := by
      refine le_of_eq_of_le ?_ hsize
      unfold selectRows
      cases p.select <;> simp [selectFields]
    rw [hlimit] at hitems
    rw [hsame, hsame, ← selectRows_cutWindow, ← selectRows_cutWindow]
    rcases hitems with rfl | rfl
    · rw [cutWindow_takeAtMost hlength]
    · rfl

end Plan

end KeyedQuery
