import KeyedQuery.Proofs.Fetch.Batch
import KeyedQuery.Proofs.Fetch.Conduct

/-!
# Limited collections

What a limit does to a collection in a calm store. No page is asked for no rows or for more rows than
the limit (`FetchPolicy.asks_collect`). If the keys of the rows are apart, the collection ends with a
beginning of all rows, and it succeeds exactly if its pages suffice (`FetchPolicy.value_collect`).
Without a filter a limit cannot do harm, whatever the keys are: every limited page is a page of the
unlimited collection, or as many rows as are missing (`FetchPolicy.exists_value_collect`).
-/

namespace KeyedQuery

/-! ## Requests -/

/-- The request reads. A page of it looks at a row at least, and at no more rows than the limit; without
a limit it looks at as many as it can. -/
def Request.Within (limit : Option Nat) : Request → Prop
  | .page q =>
    match limit with
    | some n => ∃ k, q.limit = some k ∧ 0 < k ∧ k ≤ n
    | none => q.limit = none
  | .batchGet _ _ => True
  | .transact _ _ | .put _ _ | .update _ _ _ _ _ | .delete _ _ => False

namespace Request.Within

variable {r : Request}

theorem reads {limit : Option Nat} (h : r.Within limit) : r.Reads := by
  cases r <;> trivial

theorem of_missing {limit : Option Nat} {collected : Nat}
    (h : r.Within (limit.map fun n => n - collected)) : r.Within limit := by
  cases limit with
  | none => exact h
  | some n =>
    cases r with
    | page q =>
      obtain ⟨k, hk, hpos, hle⟩ := h
      exact ⟨k, hk, hpos, hle.trans (Nat.sub_le n collected)⟩
    | batchGet _ _ => trivial
    | transact _ _ | put _ _ | update _ _ _ _ _ | delete _ _ => exact h

end Request.Within

/-- The request is for the first page of whole rows, without a limit of its own. -/
structure PageRequest.IsFirst (q : PageRequest) : Prop where
  limit : q.limit = none
  start : q.start = none
  countOnly : q.countOnly = false

/-- Keys are looked up by reading, whatever the limit. -/
theorem RetryConfig.asks_batchGet (retry : RetryConfig) (limit : Option Nat) (table : String)
    (keys : List Item) : Run.Asks (Request.Within limit) (retry.batchGet table keys) :=
  (retry.staysIn_batchGet (E := fun _ => True) (fun _ => trivial) (fun _ => trivial)
    (fun _ _ => trivial) keys).asks

/-- In a calm store a batch get yields the rows of the distinct keys. -/
theorem RetryConfig.value_batchGet (retry : RetryConfig) {m : Memory} (hcalm : m.IsCalm)
    {name : String} {t : Table} (ht : Fields.get? m.tables name = some t) (keys : List Item) :
    Run.value m.answer (retry.batchGet name keys) =
      .ok ((distinctKeys keys).filterMap t.find?) := by
  have hend := Memory.value_of_ensures hcalm
    ((retry.asks_batchGet none name _).mono fun _ => Request.Within.reads)
    (retry.ensures_batchGet keys ht)
  split at hend
  · rename_i items hitems
    rw [hitems, hend]
  · exact absurd trivial hend

namespace FetchPolicy

theorem within_forMissing {q : PageRequest} (hq : q.limit = none) {limit : Option Nat}
    {collected : List Item} (hopen : reached limit collected = false) :
    Request.Within limit (.page (q.forMissing limit collected.length)) := by
  rw [forMissing_eq hq]
  cases limit with
  | none => rfl
  | some n =>
    have hlt : collected.length < n := by simpa [reached] using hopen
    exact ⟨_, rfl, Nat.sub_pos_of_lt hlt, Nat.sub_le n _⟩

/-- A collection asks for pages only, each within the limit. -/
theorem asks_collect_of {φ : Request → Prop} (policy : FetchPolicy) {q : PageRequest}
    (hq : q.limit = none) (limit : Option Nat)
    (hφ : ∀ page : PageRequest, Request.Within limit (.page page) → φ (.page page)) :
    Run.Asks φ (policy.collect q limit) :=
  (staysIn_collect (E := fun _ => True) q limit
    (fun start _ hopen => hφ _ (within_forMissing (q := { q with start }) hq hopen))
    (fun _ => trivial) trivial).asks

theorem asks_collect (policy : FetchPolicy) {q : PageRequest} (hq : q.limit = none)
    (limit : Option Nat) : Run.Asks (Request.Within limit) (policy.collect q limit) :=
  policy.asks_collect_of hq limit fun _ h => h

/-! ## Values -/

variable {m : Memory} {t : Table} {q : PageRequest} {rows : List Item} {passes : Item → Bool}

/-- In a calm store a collection succeeds exactly if its pages suffice. -/
theorem value_collect (policy : FetchPolicy) (limit : Option Nat) (hcalm : m.IsCalm)
    (hpageSize : m.pageSize ≠ some 0) (ht : Fields.get? m.tables q.table = some t)
    (hanswers : t.Answers q rows passes) (hapart : t.KeysApart rows) (hq : q.IsFirst) :
    Run.value m.answer (policy.collect q limit) =
      if pagesSuffice m.pageSize passes (policy.furtherPages + 1) limit rows then
        .ok (takeAtMost limit (rows.filter passes))
      else .error policy.exhausted := by
  have hend := Memory.value_of_ensures hcalm
    ((policy.asks_collect hq.limit limit).mono fun _ => Request.Within.reads)
    (policy.ensures_collect limit hpageSize hapart ht hanswers hq.countOnly hq.limit hq.start)
  split at hend
  · rename_i items hitems
    rw [hitems, hend.1, if_pos hend.2]
  · rename_i fault hfault
    obtain ⟨rfl, hshort⟩ := hend trivial
    rw [hfault, if_neg (by simp [hshort])]

/-- As many pages as there are qualifying rows suffice. -/
theorem value_collect_of_length_le (policy : FetchPolicy) (limit : Option Nat) (hcalm : m.IsCalm)
    (hpageSize : m.pageSize ≠ some 0) (ht : Fields.get? m.tables q.table = some t)
    (hanswers : t.Answers q rows passes) (hapart : t.KeysApart rows) (hq : q.IsFirst)
    (hlength : rows.length ≤ policy.furtherPages + 1) :
    Run.value m.answer (policy.collect q limit) = .ok (takeAtMost limit (rows.filter passes)) := by
  rw [policy.value_collect limit hcalm hpageSize ht hanswers hapart hq,
    if_pos (pagesSuffice_of_length_le hpageSize hlength)]

theorem value_page (policy : FetchPolicy) (ht : Fields.get? m.tables q.table = some t) :
    Run.value m.answer (policy.page q) = (t.page m.pageSize q).mapError Fault.store := by
  rw [page, Run.value_request, Memory.answer_page, Memory.table, ht]
  rfl

/-- A page ends a collection, or there are no more pages, or the collection goes on behind it. -/
theorem value_collectFrom (policy : FetchPolicy) (ht : Fields.get? m.tables q.table = some t)
    (hq : q.limit = none) (limit : Option Nat) (collected : List Item) {page : Page}
    (hpage : t.page m.pageSize { q with limit := limit.map fun n => n - collected.length } =
      .ok page) (further : Nat) :
    Run.value m.answer (policy.collectFrom limit collected q further) =
      if reached limit (collected ++ page.items) then
        .ok (takeAtMost limit (collected ++ page.items))
      else match page.last, further with
        | none, _ => .ok (collected ++ page.items)
        | some _, 0 => .error policy.exhausted
        | some key, further + 1 => Run.value m.answer
            (policy.collectFrom limit (collected ++ page.items) (q.resumeFrom key) further) := by
  have hsent : Run.value m.answer (policy.page (q.forMissing limit collected.length)) =
      .ok page := by
    rw [forMissing_eq hq]
    refine (policy.value_page (q := { q with limit := limit.map _ }) ht).trans ?_
    rw [hpage]
    rfl
  cases further <;>
  · rw [collectFrom, Run.value_bind, hsent]
    show Run.value m.answer (goOn _ _ _ _) = _
    unfold goOn
    split
    · rfl
    · cases page.last <;> rfl

/-- The only fault behind a page that the store gives is that there are too few pages. -/
theorem value_collectFrom_cases (policy : FetchPolicy) (limit : Option Nat) :
    ∀ (further : Nat) {q : PageRequest} (collected : List Item),
      Fields.get? m.tables q.table = some t → t.Answers q rows passes → q.limit = none →
      (∃ items, Run.value m.answer (policy.collectFrom limit collected q further) = .ok items) ∨
        Run.value m.answer (policy.collectFrom limit collected q further) =
          .error policy.exhausted := by
  intro further q collected ht hanswers hq
  obtain ⟨page, hpage⟩ : ∃ page, t.page m.pageSize
      { q with limit := limit.map fun n => n - collected.length } = .ok page :=
    ⟨_, (hanswers.resume _ q.start).page_eq _⟩
  rw [policy.value_collectFrom ht hq limit collected hpage]
  split
  · exact .inl ⟨_, rfl⟩
  · split
    · exact .inl ⟨_, rfl⟩
    · exact .inr rfl
    · exact value_collectFrom_cases policy limit _ _ ht (hanswers.resume q.limit (some _)) hq

/-- Without a filter, a limited collection succeeds behind a page if an unlimited one does: until the
limit is reached, both take the same pages. -/
theorem exists_value_collectFrom (policy : FetchPolicy) (n : Nat) :
    ∀ (further : Nat) {q : PageRequest} (seen collected : List Item) {all : List Item},
      Fields.get? m.tables q.table = some t → t.Answers q rows passes → q.limit = none →
      q.countOnly = false → q.filter = none → collected.length < n →
      Run.value m.answer (policy.collectFrom none seen q further) = .ok all →
      ∃ items, Run.value m.answer (policy.collectFrom (some n) collected q further) =
        .ok items := by
  intro further q seen collected all ht hanswers hq hcount hfilter hlt hall
  obtain ⟨page, hpage, hpages⟩ := (hanswers.resume q.limit q.start).page_limited hfilter hcount
    m.pageSize (n - collected.length)
  rw [policy.value_collectFrom ht hq (some n) collected hpage]
  split
  · exact ⟨_, rfl⟩
  · rename_i hopen
    have hshort : collected.length + page.items.length < n := by simpa [reached] using hopen
    rcases hpages with hle | hunlimited
    · omega
    · rw [policy.value_collectFrom ht hq none seen hunlimited] at hall
      split
      · exact ⟨_, rfl⟩
      · rename_i key hkey
        rw [hkey] at hall
        cases hall
      · rename_i key further hkey
        rw [hkey] at hall
        exact exists_value_collectFrom policy n further (seen ++ page.items) _ ht
          (hanswers.resume q.limit (some key)) hq hcount hfilter (by simpa using hshort) hall

/-- A collection that succeeds is of a request that the store takes. -/
theorem exists_answers_of_value_collect (policy : FetchPolicy) (hq : q.IsFirst) {all : List Item}
    (hall : Run.value m.answer (policy.collect q none) = .ok all) :
    ∃ t rows passes, Fields.get? m.tables q.table = some t ∧ t.Answers q rows passes := by
  have hsent : ∃ page, Run.value m.answer (policy.page q) = .ok page := by
    rw [collect, if_neg (by simp)] at hall
    cases hfurther : policy.furtherPages <;>
    · rw [hfurther, collectFrom, forMissing_eq hq.limit, Option.map_none, ← hq.limit,
        Run.value_bind] at hall
      obtain ⟨page, hpage, -⟩ := exists_of_bind_eq_ok hall
      exact ⟨page, hpage⟩
  obtain ⟨page, hpage⟩ := hsent
  cases ht : Fields.get? m.tables q.table with
  | none =>
    rw [FetchPolicy.page, Run.value_request, Memory.answer_page, Memory.table, ht] at hpage
    cases hpage
  | some t =>
    rcases t.answers_or_error q with ⟨rows, passes, hanswers⟩ | ⟨fault, hrefused⟩
    · exact ⟨t, rows, passes, rfl, hanswers⟩
    · rw [policy.value_page ht, hrefused m.pageSize q.limit q.start q.countOnly] at hpage
      cases hpage

theorem value_collect_cases (policy : FetchPolicy) (limit : Option Nat) (hq : q.IsFirst)
    (ht : Fields.get? m.tables q.table = some t) (hanswers : t.Answers q rows passes) :
    (∃ items, Run.value m.answer (policy.collect q limit) = .ok items) ∨
      Run.value m.answer (policy.collect q limit) = .error policy.exhausted := by
  rw [collect]
  split
  · exact .inl ⟨_, rfl⟩
  · exact policy.value_collectFrom_cases limit _ [] ht hanswers hq.limit

/-- Without a filter, a limited collection succeeds if the unlimited one does. -/
theorem exists_value_collect (policy : FetchPolicy) (limit : Option Nat) (hq : q.IsFirst)
    (hfilter : q.filter = none) {all : List Item}
    (hall : Run.value m.answer (policy.collect q none) = .ok all) :
    ∃ items, Run.value m.answer (policy.collect q limit) = .ok items := by
  obtain ⟨t, rows, passes, ht, hanswers⟩ := policy.exists_answers_of_value_collect hq hall
  cases limit with
  | none => exact ⟨all, hall⟩
  | some n =>
    rw [collect]
    split
    · exact ⟨[], rfl⟩
    · rename_i hpositive
      rw [collect, if_neg (by simp)] at hall
      exact policy.exists_value_collectFrom n _ [] [] ht hanswers hq.limit hq.countOnly hfilter
        (Nat.pos_of_ne_zero fun hzero => hpositive (by rw [hzero])) hall

end FetchPolicy

end KeyedQuery
