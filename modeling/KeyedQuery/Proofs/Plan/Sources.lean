import KeyedQuery.Database.Basic
import KeyedQuery.Proofs.Fetch.Batch
import KeyedQuery.Proofs.Plan.Joins
import KeyedQuery.Proofs.Plan.Windows

/-!
# Where the rows of a plan come from

Whatever is asked and however the plan reaches them, the rows that a plan fetches are rows of its table
(`Plan.ensures_fetch_mem`). What a plan returns is made of them by leaving out fields and by attaching
partners, so it shows the attributes that are neither left out nor attached under as they are stored
(`Plan.ensures_rows_shows`).
-/

namespace KeyedQuery

variable {t : Table} {tables : Fields Table} {pageSize : Option Nat} {policy : FetchPolicy}
  {names : List String} {P : Item → Prop}

/-- A dialogue keeps what each of its requests keeps. -/
theorem Run.Asks.ensures {α σ : Type} {client : Client σ} {I : σ → Prop} {φ : Request → Prop}
    {p : Run α} (h : Run.Asks φ p)
    (hserves : ∀ r, φ r → client.Serves I r (fun _ => True) (fun _ => True)) :
    Run.Ensures client I p (fun _ => True) (fun _ => True) := by
  have hkeeps : ∀ {β : Type} (d : Dialogue β), d.Asks φ → ∀ w : World σ, I w.store →
      I (d.run client w).2.store := by
    intro β d
    induction d with
    | done a => exact fun _ w hw => hw
    | ask r next ih => exact fun hd w hw => ih _ (hd.2 _) _ (hserves r hd.1 _ hw).1
    | sleep ms next ih => exact fun hd w hw => ih hd _ hw
    | tally c n next ih => exact fun hd w hw => ih hd _ hw
  intro w hw
  refine ⟨hkeeps p.run h w hw, ?_⟩
  cases (p.run.run client w).1 <;> trivial

namespace Memory

/-- A request that reads leaves the tables and the page size alone. -/
theorem receive_of_reads {r : Request} (hr : r.Reads) (m : Memory) :
    (receive r m).2.tables = m.tables ∧ (receive r m).2.pageSize = m.pageSize := by
  unfold receive
  split
  · rename_i fault next hfailure
    obtain ⟨-, failures, rfl⟩ := takeFailure?_eq_some hfailure
    exact ⟨rfl, rfl⟩
  · cases r with
    | page q => exact ⟨rfl, rfl⟩
    | batchGet table keys =>
      show (m.batchGet table keys).2.tables = _ ∧ (m.batchGet table keys).2.pageSize = _
      unfold batchGet
      split
      · exact ⟨rfl, rfl⟩
      · split <;> exact ⟨rfl, rfl⟩
    | transact _ _ | put _ _ | update _ _ _ _ _ | delete _ _ => exact hr.elim

theorem Holds.receive_of_reads {r : Request} (hr : r.Reads) {m : Memory}
    (hm : Holds tables pageSize False m) : Holds tables pageSize False (receive r m).2 where
  tables_eq := (Memory.receive_of_reads hr m).1.trans hm.tables_eq
  pageSize_eq := (Memory.receive_of_reads hr m).2.trans hm.pageSize_eq
  failures_eq := False.elim
  rounds_eq := False.elim

/-- Reading keeps the tables, in whatever way it ends. -/
theorem serves_of_reads {r : Request} (hr : r.Reads) :
    Client.Serves receive (Holds tables pageSize False) r (fun _ => True) (fun _ => True) := by
  refine fun m hm => ⟨hm.receive_of_reads hr, ?_⟩
  cases (receive r m).1 <;> trivial

end Memory

/-! ## Fetching -/

/-- What is true of the rows that qualify for a request is true of the rows on its page. -/
theorem Table.forall_mem_page {q : PageRequest} {page : Page}
    (hcandidates : ∀ rows, t.candidates q = .ok rows → ∀ row ∈ rows, P row)
    (h : t.page pageSize q = .ok page) : ∀ row ∈ page.items, P row := by
  have hcovered : ∀ {limit : Option Nat} {rows : List Item} {row : Item},
      row ∈ takeAtMost limit rows → row ∈ rows := by
    intro limit rows row h
    cases limit with
    | none => exact h
    | some n => exact List.mem_of_mem_take h
  have hbehind : ∀ {rows : List Item} {row : Item}, row ∈ t.behind q.start rows → row ∈ rows := by
    intro rows row h
    unfold behind at h
    split at h
    · exact h
    · exact (List.dropWhile_sublist _).subset (List.mem_of_mem_tail h)
  rcases t.answers_or_error q with ⟨rows, passes, hanswers⟩ | ⟨fault, herror⟩
  · rw [hanswers.page_eq] at h
    obtain rfl := Except.ok.inj h
    intro row hrow
    dsimp only at hrow
    split at hrow
    · cases hrow
    · exact hcandidates rows hanswers.candidates row
        (hbehind (hcovered (List.mem_of_mem_filter hrow)))
  · cases (herror pageSize q.limit q.start q.countOnly).symm.trans h

/-- A page shows rows of its table only. -/
theorem Table.mem_items_of_page {q : PageRequest} {page : Page} (h : t.page pageSize q = .ok page) :
    ∀ row ∈ page.items, row ∈ t.items := by
  refine forall_mem_page (fun rows hrows row hrow => ?_) h
  obtain ⟨test, hperm⟩ := exists_perm_of_candidates hrows
  exact List.mem_of_mem_filter (hperm.mem_iff.mp hrow)

/-- A page of a query shows only rows for which its key condition holds. -/
theorem Table.holds_of_mem_page {q : PageRequest} {page : Page} {index : Option String} {text : String}
    {forward : Bool} {test : Item → Bool} (haccess : q.access = .query index text forward)
    (htext : TextMeans q.attributes text test) (h : t.page pageSize q = .ok page) :
    ∀ row ∈ page.items, test row = true := by
  refine forall_mem_page (fun rows hrows row hrow => ?_) h
  obtain ⟨key, hkey, hholds⟩ := htext
  cases hsort : t.sortAttribute index with
  | error fault =>
    unfold candidates at hrows
    simp only [haccess, hsort, bind, Except.bind] at hrows
    cases hrows
  | ok sort =>
    rw [candidates_query haccess hsort hkey] at hrows
    obtain rfl := Except.ok.inj hrows
    have hmem : row ∈ t.items.filter key.holds := by
      split at hrow
      · exact (arrange_perm sort _).mem_iff.mp hrow
      · exact (arrange_perm sort _).mem_iff.mp (List.mem_reverse.mp hrow)
    exact (hholds row).symm.trans (List.mem_filter.mp hmem).2

/-- What is true of the rows of the table, if there is one, is true of the rows on a page. -/
theorem Memory.serves_page_forall {q : PageRequest}
    (hrows : ∀ t, Fields.get? tables q.table = some t → ∀ row ∈ t.items, P row) :
    Client.Serves receive (Holds tables pageSize False) (.page q)
      (fun page => ∀ row ∈ page.items, P row) (fun _ => True) := by
  refine fun m hm => ⟨hm.receive_of_reads (r := .page q) trivial, ?_⟩
  split
  · rename_i page hpage
    unfold receive at hpage
    split at hpage
    · cases hpage
    · change (m.table q.table).bind (fun t => t.page m.pageSize q) = .ok page at hpage
      obtain ⟨t, ht, hpage⟩ := exists_of_bind_eq_ok hpage
      have htable := hm.tables_eq ▸ get?_of_table_eq_ok ht
      exact fun row hrow => hrows t htable row (Table.mem_items_of_page hpage row hrow)
  · trivial

/-- What is true of the rows of the table, if there is one, is true of the rows in the answer to a batch
get. -/
theorem Memory.serves_batchGet_forall {name : String} {keys : List Item}
    (hrows : ∀ t, Fields.get? tables name = some t → ∀ row ∈ t.items, P row) :
    Client.Serves receive (Holds tables pageSize False) (.batchGet name keys)
      (fun answer => ∀ row ∈ answer.items, P row) (fun _ => True) := by
  refine fun m hm => ⟨hm.receive_of_reads (r := .batchGet name keys) trivial, ?_⟩
  split
  · rename_i answer hanswer
    unfold receive at hanswer
    split at hanswer
    · cases hanswer
    · change (m.batchGet name keys).1 = .ok answer at hanswer
      unfold batchGet at hanswer
      split at hanswer
      · cases hanswer
      · split at hanswer
        · obtain rfl := Except.ok.inj hanswer
          simp
        · obtain ⟨t, ht, rfl⟩ := exists_of_map_eq_ok hanswer
          intro row hrow
          obtain ⟨key, -, hfind⟩ := List.mem_filterMap.mp hrow
          exact hrows t (hm.tables_eq ▸ get?_of_table_eq_ok ht) row
            (List.mem_of_find?_eq_some hfind)
  · trivial

/-- Whatever the tables are, the rows that a query is answered with are rows for which its key condition
holds. -/
theorem Memory.serves_query_holds {q : PageRequest} {index : Option String} {text : String}
    {forward : Bool} {test : Item → Bool} (haccess : q.access = .query index text forward)
    (htext : TextMeans q.attributes text test) :
    Client.Serves receive (Holds tables pageSize False) (.page q)
      (fun page => ∀ row ∈ page.items, test row = true) (fun _ => True) := by
  refine fun m hm => ⟨hm.receive_of_reads (r := .page q) trivial, ?_⟩
  split
  · rename_i page hpage
    unfold receive at hpage
    split at hpage
    · cases hpage
    · change (m.table q.table).bind (fun t => t.page m.pageSize q) = .ok page at hpage
      obtain ⟨t, -, hpage⟩ := exists_of_bind_eq_ok hpage
      exact Table.holds_of_mem_page haccess htext hpage
  · trivial

namespace FetchPolicy

variable {I : Memory → Prop} {limit : Option Nat}

theorem ensures_goOn_forall {items : List Item} {last : Option Item} {more : Item → Run (List Item)}
    (hitems : ∀ row ∈ items, P row)
    (hmore : ∀ key, Run.Ensures Memory.receive I (more key) (fun rows => ∀ row ∈ rows, P row)
      (fun _ => True)) :
    Run.Ensures Memory.receive I (goOn limit items last more) (fun rows => ∀ row ∈ rows, P row)
      (fun _ => True) := by
  unfold goOn
  split
  · refine .pure fun row hrow => hitems row ?_
    cases limit with
    | none => exact hrow
    | some n => exact List.mem_of_mem_take hrow
  · cases last with
    | none => exact .pure hitems
    | some key => exact hmore key

variable (limit) in
/-- What is true of the rows on each page is true of the rows of all pages. -/
theorem ensures_collect_forall (policy : FetchPolicy) {q : PageRequest}
    (hserves : ∀ limit start, Client.Serves Memory.receive I (.page { q with limit, start })
      (fun page => ∀ row ∈ page.items, P row) (fun _ => True)) :
    Run.Ensures Memory.receive I (policy.collect q limit) (fun rows => ∀ row ∈ rows, P row)
      (fun _ => True) := by
  have hfrom : ∀ (further : Nat) (collected : List Item) (q : PageRequest),
      (∀ row ∈ collected, P row) →
      (∀ limit start, Client.Serves Memory.receive I (.page { q with limit, start })
        (fun page => ∀ row ∈ page.items, P row) (fun _ => True)) →
      Run.Ensures Memory.receive I (policy.collectFrom limit collected q further)
        (fun rows => ∀ row ∈ rows, P row) (fun _ => True) := by
    have hpage : ∀ (collected : List Item) (q : PageRequest),
        (∀ limit start, Client.Serves Memory.receive I (.page { q with limit, start })
          (fun page => ∀ row ∈ page.items, P row) (fun _ => True)) →
        Run.Ensures Memory.receive I (policy.page (q.forMissing limit collected.length))
          (fun page => ∀ row ∈ page.items, P row) (fun _ => True) := by
      intro collected q hserves
      refine .request policy.retry ?_
      cases limit with
      | none => exact hserves q.limit q.start
      | some n => exact hserves (some (n - collected.length)) q.start
    have hboth : ∀ {collected items : List Item}, (∀ row ∈ collected, P row) →
        (∀ row ∈ items, P row) → ∀ row ∈ collected ++ items, P row := by
      intro collected items hcollected hitems row hrow
      exact (List.mem_append.mp hrow).elim (hcollected row) (hitems row)
    intro further
    induction further with
    | zero =>
      intro collected q hcollected hserves
      rw [collectFrom]
      exact (hpage collected q hserves).bind fun page hmem =>
        ensures_goOn_forall (hboth hcollected hmem) fun _ => .throw trivial
    | succ further ih =>
      intro collected q hcollected hserves
      rw [collectFrom]
      exact (hpage collected q hserves).bind fun page hmem =>
        ensures_goOn_forall (hboth hcollected hmem) fun key =>
          ih _ (q.resumeFrom key) (hboth hcollected hmem) hserves
  unfold collect
  split
  · exact .pure (by simp)
  · exact hfrom _ [] q (by simp) hserves

end FetchPolicy

/-- What is true of the rows in every answer to a batch get is true of the rows that a batch get ends with,
in however many rounds. -/
theorem RetryConfig.ensures_batchGet_forall {I : Memory → Prop} (retry : RetryConfig) {name : String}
    (hserves : ∀ keys, Client.Serves Memory.receive I (.batchGet name keys)
      (fun answer => ∀ row ∈ answer.items, P row) (fun _ => True)) (keys : List Item) :
    Run.Ensures Memory.receive I (retry.batchGet name keys) (fun rows => ∀ row ∈ rows, P row)
      (fun _ => True) := by
  have hbatch : ∀ left rounds keys, Run.Ensures Memory.receive I
      (retry.batchAfter name rounds keys left) (fun rows => ∀ row ∈ rows, P row) (fun _ => True) := by
    intro left
    induction left with
    | zero =>
      intro rounds keys
      rw [batchAfter]
      refine (Run.Ensures.request retry (hserves keys)).bind fun answer hanswer => ?_
      split
      · exact .pure hanswer
      · exact .throw trivial
    | succ left ih =>
      intro rounds keys
      rw [batchAfter]
      refine (Run.Ensures.request retry (hserves keys)).bind fun answer hanswer => ?_
      split
      · exact .pure hanswer
      · refine Run.Ensures.count.bind fun _ _ => Run.Ensures.wait.bind fun _ _ => ?_
        refine (ih _ _).bind fun more hmore => .pure fun row hrow => ?_
        exact (List.mem_append.mp hrow).elim (hanswer row) (hmore row)
  have hflatten : ∀ {batches parts : List (List Item)},
      List.Forall₂ (fun _ rows => ∀ row ∈ rows, P row) batches parts →
        ∀ row ∈ parts.flatten, P row := by
    intro batches parts h
    induction h with
    | nil => simp
    | cons hpart _ ih =>
      rw [List.flatten_cons]
      exact fun row hrow => (List.mem_append.mp hrow).elim (hpart row) (ih row)
  exact (Run.Ensures.mapM fun batch _ => hbatch _ 0 batch).bind fun parts hparts =>
    .pure (hflatten hparts)

namespace Plan

theorem ensures_collectInTurn_forall {I : Memory → Prop} (limit : Option Nat) :
    ∀ {requests : List PageRequest} (collected : List Item),
      (∀ q ∈ requests, ∀ limit start, Client.Serves Memory.receive I (.page { q with limit, start })
        (fun page => ∀ row ∈ page.items, P row) (fun _ => True)) → (∀ row ∈ collected, P row) →
      Run.Ensures Memory.receive I (collectInTurn policy limit collected requests)
        (fun rows => ∀ row ∈ rows, P row) (fun _ => True)
  | [], collected, _, hcollected => by
    rw [collectInTurn]
    exact .pure hcollected
  | q :: requests, collected, hserves, hcollected => by
    rw [collectInTurn]
    split
    · exact .pure hcollected
    · refine (policy.ensures_collect_forall _ (hserves q List.mem_cons_self)).bind fun more hmore => ?_
      refine ensures_collectInTurn_forall limit _
        (fun q hq => hserves q (List.mem_cons_of_mem _ hq)) fun row hrow => ?_
      exact (List.mem_append.mp hrow).elim (hcollected row) (hmore row)

/-- What is true of the rows of a plan's table, if there is one, is true of the rows that the plan fetches. -/
theorem ensures_fetch_forall (p : Plan)
    (hrows : ∀ t, Fields.get? tables p.table = some t → ∀ row ∈ t.items, P row)
    (limit : Option Nat) :
    Run.Ensures Memory.receive (Memory.Holds tables pageSize False) (p.fetch policy limit)
      (fun rows => ∀ row ∈ rows, P row) (fun _ => True) := by
  by_cases hstrategy : p.directives.baseStrategy = .batchGet
  · unfold fetch
    rw [hstrategy]
    refine .ofExcept_bind (fun values _ => ?_) fun _ _ => trivial
    refine (policy.retry.ensures_batchGet_forall (fun _ => Memory.serves_batchGet_forall hrows) _).bind
      fun items hitems => .pure fun row hrow => ?_
    exact hitems row ((stableSort_perm _ _).mem_iff.mp hrow)
  · rw [fetch_eq_collectInTurn hstrategy]
    refine .ofExcept_bind (fun requests hrequests => ?_) fun _ _ => trivial
    exact ensures_collectInTurn_forall limit [] (fun q hq _ _ => Memory.serves_page_forall
      fun t ht => hrows t ((isFirst_of_pageRequests hrequests q hq).2 ▸ ht)) (by simp)

/-- The rows that a plan fetches are rows of its table. -/
theorem ensures_fetch_mem (p : Plan) (ht : Fields.get? tables p.table = some t)
    (limit : Option Nat) :
    Run.Ensures Memory.receive (Memory.Holds tables pageSize False) (p.fetch policy limit)
      (fun rows => ∀ row ∈ rows, row ∈ t.items) (fun _ => True) :=
  p.ensures_fetch_forall (fun t' ht' row hrow => by
    obtain rfl := Option.some.inj (ht.symm.trans ht')
    exact hrow) limit

/-- Filtering, sorting and cutting add no rows. -/
theorem mem_of_mem_cutWindow {p : Plan} {fetched : List Item} {row : Item}
    (h : row ∈ cutWindow p.offset p.limit (p.sortRows (p.filterRows fetched))) : row ∈ fetched := by
  have hsorted : row ∈ p.sortRows (p.filterRows fetched) := by
    unfold cutWindow at h
    cases hlimit : p.limit with
    | none =>
      rw [hlimit] at h
      exact List.mem_of_mem_drop h
    | some n =>
      rw [hlimit] at h
      exact List.mem_of_mem_drop (List.mem_of_mem_take h)
  have hkept : row ∈ p.filterRows fetched := by
    unfold sortRows at hsorted
    split at hsorted
    · split at hsorted
      · exact (stableSort_perm _ _).mem_iff.mp hsorted
      · exact hsorted
    · exact hsorted
  unfold filterRows at hkept
  split at hkept
  · exact List.mem_of_mem_filter hkept
  · exact hkept

theorem mem_of_mem_finish {p : Plan} (hselect : p.select = none) {fetched : List Item} {row : Item}
    (h : row ∈ p.finish fetched) : row ∈ fetched := by
  unfold finish selectRows at h
  rw [hselect] at h
  exact mem_of_mem_cutWindow h

end Plan

/-! ## Attributes that are left alone -/

/-- The row has in the given attributes what some row with the property has. -/
def Item.Shows (P : Item → Prop) (names : List String) (row : Item) : Prop :=
  ∃ source, P source ∧ ∀ a ∈ names, Fields.get? row a = Fields.get? source a

theorem Item.get?_keepFields {item : Item} {a : String} (h : a ∈ names) :
    Fields.get? (item.keepFields names) a = Fields.get? item a := by
  induction item with
  | nil => rfl
  | cons field rest ih =>
    obtain ⟨name, value⟩ := field
    unfold keepFields at ih ⊢
    by_cases hname : name ∈ names
    · rw [List.filter_cons_of_pos (by simpa using hname), Fields.get?_cons, Fields.get?_cons, ih]
    · have hne : name ≠ a := fun heq => hname (heq ▸ h)
      rw [List.filter_cons_of_neg (by simpa using hname), ih, Fields.get?_cons, if_neg hne]

/-- Attaching partners under other attributes leaves what a row shows. -/
theorem ResolvedJoin.ensures_attach_shows (j : ResolvedJoin) (strategy : Strategy)
    (hlabel : j.label ∉ names) {rows : List Item} (hrows : ∀ row ∈ rows, row.Shows P names) :
    Run.Ensures Memory.receive (Memory.Holds tables pageSize False) (j.attach policy strategy rows)
      (fun joined => ∀ row ∈ joined, row.Shows P names) (fun _ => True) := by
  have hattached : ∀ targets, ∀ row ∈ rows.map (j.attachTo targets), row.Shows P names := by
    intro targets row hrow
    obtain ⟨plain, hplain, rfl⟩ := List.mem_map.mp hrow
    obtain ⟨source, hsource, hagree⟩ := hrows plain hplain
    refine ⟨source, hsource, fun a ha => ?_⟩
    have hne : j.label ≠ a := fun heq => hlabel (heq ▸ ha)
    rw [attachTo, Fields.get?_insert_of_ne _ _ hne, hagree a ha]
  unfold attach
  dsimp only
  split
  · exact .pure (hattached [])
  · exact ((j.asks_fetch policy _ _).ensures fun r hr => Memory.serves_of_reads hr).bind
      fun targets _ => .pure (hattached targets)

/-! ## Requests -/

/-- Joined or not, a plan only reads. -/
theorem Plan.asks_rows_reads (p : Plan) (policy : FetchPolicy) :
    Run.Asks Request.Reads (p.rows policy) :=
  (Run.Asks.composes _).rows ((p.asks_fetch _).mono fun _ hr => hr.reads)
    fun j _ strategy rows => j.asks_attach policy strategy rows

namespace Database

variable {db : Database}

theorem asks_findMany_reads (q : FindQuery) : Run.Asks Request.Reads (db.findMany q) :=
  .ofExcept_bind fun p _ => p.asks_rows_reads _

theorem asks_findOne_reads (q : FindQuery) : Run.Asks Request.Reads (db.findOne q) :=
  (asks_findMany_reads { q with limit := some 1 }).bind fun _ => .pure _

end Database

namespace Plan

/-- The plan returns some attributes of a row as they are: they are selected, or some join looks at them,
and no join is attached under them. -/
structure Retains (p : Plan) (names : List String) : Prop where
  selected : ∀ fields, p.select = some fields → ∀ a ∈ names,
    a ∈ fields ++ p.joins.map ResolvedJoin.localField
  label_notMem : ∀ j ∈ p.joins, j.label ∉ names

theorem ensures_joinRows_shows : ∀ {joins : List (ResolvedJoin × Strategy)} {rows : List Item},
    (∀ j ∈ joins, j.1.label ∉ names) → (∀ row ∈ rows, row.Shows P names) →
      Run.Ensures Memory.receive (Memory.Holds tables pageSize False) (joinRows policy joins rows)
        (fun joined => ∀ row ∈ joined, row.Shows P names) (fun _ => True)
  | [], _, _, hrows => .pure hrows
  | (j, strategy) :: joins, _, hjoins, hrows => by
    rw [joinRows]
    exact (j.ensures_attach_shows strategy (hjoins _ List.mem_cons_self) hrows).bind
      fun joined hjoined => ensures_joinRows_shows
        (fun j hj => hjoins j (List.mem_cons_of_mem _ hj)) hjoined

/-- What a plan returns shows the attributes that it retains as they were fetched. -/
theorem ensures_rows_shows {p : Plan} (hretains : p.Retains names)
    (hfetch : Run.Ensures Memory.receive (Memory.Holds tables pageSize False)
      (p.fetch policy p.directives.fetchLimit) (fun rows => ∀ row ∈ rows, P row) (fun _ => True)) :
    Run.Ensures Memory.receive (Memory.Holds tables pageSize False) (p.rows policy)
      (fun rows => ∀ row ∈ rows, row.Shows P names) (fun _ => True) := by
  have hwindow : ∀ {fetched : List Item}, (∀ row ∈ fetched, P row) →
      ∀ row ∈ p.selectRows (cutWindow p.offset p.limit (p.sortRows (p.filterRows fetched))),
        row.Shows P names := by
    intro fetched hfetched
    have hplain : ∀ row ∈ cutWindow p.offset p.limit (p.sortRows (p.filterRows fetched)),
        P row := fun row hrow => hfetched row (mem_of_mem_cutWindow hrow)
    unfold selectRows
    cases hselect : p.select with
    | none => exact fun row hrow => ⟨row, hplain row hrow, fun _ _ => rfl⟩
    | some fields =>
      intro row hrow
      obtain ⟨source, hsource, rfl⟩ := List.mem_map.mp hrow
      exact ⟨source, hplain source hsource, fun a ha =>
        Item.get?_keepFields (hretains.selected fields hselect a ha)⟩
  unfold rows
  refine hfetch.bind fun fetched hfetched => ?_
  have hjoined : ∀ rows : List Item, (∀ row ∈ rows, row.Shows P names) →
      Run.Ensures Memory.receive (Memory.Holds tables pageSize False) (do
        let joined ← joinRows policy (p.joins.zip p.directives.joinStrategies) rows
        Run.count .finds 1
        pure joined) (fun rows => ∀ row ∈ rows, row.Shows P names) (fun _ => True) :=
    fun rows hrows => (ensures_joinRows_shows
      (fun j hj => hretains.label_notMem _ (List.of_mem_zip hj).1) hrows).bind
        fun joined hjoined => Run.Ensures.count.bind fun _ _ => .pure hjoined
  dsimp only
  split
  · exact Run.Ensures.count.bind fun _ _ => hjoined _ (hwindow hfetched)
  · exact hjoined _ (hwindow hfetched)

end Plan

/-! ## Attributes that a query leaves alone -/

/-- The query returns some attributes of a row as they are: they are selected, or it selects nothing, and
no join is attached under them. -/
structure FindQuery.Retains (r : Resolver) (q : FindQuery) (names : List String) : Prop where
  selected : ∀ fields, q.select = some fields → ∀ a ∈ names, a ∈ fields.map (r.fieldName q.model)
  label_notMem : ∀ j ∈ q.joins, j.label.getD j.targetModel ∉ names

namespace Plan

variable {r : Resolver} {c : Config} {q : FindQuery} {p : Plan}

/-- A plan retains what its query does. -/
theorem retains_of_ofQuery (hp : ofQuery r c q = .ok p) (h : q.Retains r names) : p.Retains names := by
  refine ⟨fun fields hfields a ha => ?_, fun j hj => ?_⟩
  · have hselect := (follows_of_ofQuery hp).select
    obtain ⟨given, hgiven, rfl⟩ := Option.map_eq_some_iff.mp (hselect.symm.trans hfields)
    exact List.mem_append_left _ (h.selected given hgiven a ha)
  · obtain ⟨parts, hparts, rfl⟩ := exists_parts hp
    obtain ⟨resolved, hresolved, rfl⟩ := List.mem_map.mp hj
    obtain ⟨edge, hedge, hresolve⟩ := exists_of_mem_of_mapM_eq_ok hparts.joins resolved hresolved
    rw [(resolves_of_resolveJoin hresolve).label]
    exact h.label_notMem edge hedge

end Plan

end KeyedQuery
