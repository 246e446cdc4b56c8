import KeyedQuery.Database.Basic
import KeyedQuery.Proofs.Plan.Windows

/-!
# Limits and offsets

A query without joins that has a window finds that window of the rows that it finds without
(`Database.findMany_window`), if pages are followed without limit. If they are not, asking for fewer
rows can fail where asking for all succeeds: a page of a limited query looks at no more rows than are
missing, also at rows that the filter drops, so it may take more pages (`Database.findMany_limit`).
-/

namespace KeyedQuery

namespace Database

variable {db : Database} {w : World Memory} {q : FindQuery} {p : Plan}

theorem asks_findMany (hjoins : q.joins = []) {φ : Request → Prop}
    (h : ∀ p, db.plan q = .ok p → ∀ r : Request, r.Within p.directives.fetchLimit → φ r) :
    Run.Asks φ (db.findMany q) :=
  Run.Asks.ofExcept_bind fun p hp =>
    (Plan.asks_rows (Plan.of_ofQuery hp hjoins).2).mono (h p hp)

/-- A query ends with what its plan makes of the rows that it fetches. -/
theorem run_findMany (hcalm : w.store.IsCalm) (hjoins : q.joins = []) :
    ((db.findMany q).run.run Memory.receive w).1 = db.plan q >>= fun p =>
      (Run.value w.store.answer (p.fetch db.policy p.directives.fetchLimit)).map p.finish := by
  unfold findMany
  cases hp : db.plan q with
  | error fault => rfl
  | ok p =>
    have hfetch : ((p.fetch db.policy p.directives.fetchLimit).run.run Memory.receive w).1 = _ :=
      Memory.run_eq_value hcalm ((p.asks_fetch _).mono fun _ => Request.Within.reads)
    exact (Plan.run_rows Memory.receive (Plan.of_ofQuery hp hjoins).2 w).trans
      (congrArg (Except.map p.finish) hfetch)

/-- A query that succeeds returns what its plan makes of the rows that it fetched. -/
theorem exists_fetched_of_findMany (hjoins : q.joins = []) {rows : List Item}
    (h : ((db.findMany q).run.run Memory.receive w).1 = .ok rows) :
    ∃ p, db.plan q = .ok p ∧ ∃ fetched, ((p.fetch db.policy p.directives.fetchLimit).run.run
      Memory.receive w).1 = .ok fetched ∧ p.finish fetched = rows := by
  obtain ⟨p, hp, h⟩ := Run.exists_of_run_ofExcept_bind_eq_ok h
  rw [Plan.run_rows Memory.receive (Plan.of_ofQuery hp hjoins).2] at h
  exact ⟨p, hp, exists_of_map_eq_ok h⟩

theorem plan_window (hp : db.plan q = .ok p) (limit offset : Option Nat) :
    db.plan { q with limit, offset } = .ok (p.withWindow limit (offset.getD 0)) := by
  rw [plan, Plan.ofQuery_window]
  rw [plan] at hp
  rw [hp]
  rfl

/-- A window changes what a query makes of the rows that it fetches, and how many it fetches. -/
theorem run_window (hcalm : w.store.IsCalm) (hjoins : q.joins = []) (hp : db.plan q = .ok p)
    (limit offset : Option Nat) :
    ((db.findMany { q with limit, offset }).run.run Memory.receive w).1 =
      (Run.value w.store.answer (p.fetch db.policy
        (p.withWindow limit (offset.getD 0)).directives.fetchLimit)).map
          (p.withWindow limit (offset.getD 0)).finish := by
  rw [run_findMany (q := { q with limit, offset }) hcalm hjoins, plan_window hp]
  rfl

/-- A query that finds rows without limit has a plan that fetches all its rows. -/
theorem exists_fetched (hcalm : w.store.IsCalm) (hjoins : q.joins = []) {offset : Option Nat}
    {rows : List Item} (hrows : ((db.findMany { q with limit := none, offset }).run.run
      Memory.receive w).1 = .ok rows) :
    ∃ p fetched, db.plan q = .ok p ∧
      Run.value w.store.answer (p.fetch db.policy none) = .ok fetched ∧
      rows = (p.withWindow none (offset.getD 0)).finish fetched := by
  cases hp : db.plan q with
  | error fault =>
    rw [run_findMany (q := { q with limit := none, offset }) hcalm hjoins, plan,
      Plan.ofQuery_window, show Plan.ofQuery _ _ q = .error fault from hp] at hrows
    cases hrows
  | ok p =>
    rw [run_window hcalm hjoins hp] at hrows
    have hlimit : (p.withWindow none (offset.getD 0)).directives.fetchLimit = none := by
      simp [Plan.withWindow]
    rw [hlimit] at hrows
    obtain ⟨fetched, hfetched, hfinish⟩ := exists_of_map_eq_ok hrows
    exact ⟨p, fetched, rfl, hfetched, hfinish.symm⟩

theorem fetchLimit_le (p : Plan) (limit : Option Nat) (offset n : Nat)
    (hn : (p.withWindow limit offset).directives.fetchLimit = some n) : n ≤ Plan.maxSize := by
  simp only [Plan.withWindow] at hn
  split at hn
  · cases hn
  · obtain ⟨l, -, rfl⟩ := Option.map_eq_some_iff.mp hn
    exact Nat.min_le_right _ _

/-- If pages are followed without limit, a query with a window finds that window of the rows that the
query finds without. No page is asked for no rows, as it would be if more rows had been collected than
wanted, and none for more rows than can be counted; and filtering leaves no more rows than there
were. -/
theorem findMany_window (hmode : db.config.pageMode = .unbounded) (hcalm : w.store.IsCalm)
    (hpageSize : w.store.pageSize ≠ some 0)
    (htables : ∀ name t, db.resolver.table q.model = .ok name →
      Fields.get? w.store.tables name = some t →
      t.KeysApart t.items ∧ t.items.length ≤ db.horizon)
    (hjoins : q.joins = []) {rows : List Item}
    (hrows : ((db.findMany { q with limit := none, offset := none }).run.run Memory.receive w).1 =
      .ok rows) (hsize : rows.length ≤ Plan.maxSize) (limit offset : Option Nat) :
    ((db.findMany { q with limit, offset }).run.run Memory.receive w).1 =
        .ok (takeAtMost limit (rows.drop (offset.getD 0))) ∧
      Run.Asks (fun r => ∀ page, r = .page page → ∀ n, page.limit = some n →
        0 < n ∧ n ≤ Plan.maxSize) (db.findMany { q with limit, offset }) ∧
      ∀ p, db.plan { q with limit, offset } = .ok p →
        ∀ fetched, (p.filterRows fetched).length ≤ fetched.length := by
  obtain ⟨p, fetched, hp, hfetched, rfl⟩ := exists_fetched hcalm hjoins hrows
  have htable := (Plan.of_ofQuery hp hjoins).1
  obtain ⟨requests, selections, hrequests, hselections, -⟩ := Plan.exists_requests hfetched
  obtain ⟨items, hitems, hvalue⟩ := Plan.value_fetch hcalm hpageSize hfetched
    (fun t ht => (htables _ t htable ht).1) hrequests hselections
    (p.withWindow limit (offset.getD 0)).directives.fetchLimit
  have hpages : db.policy.furtherPages = db.horizon := by
    rw [policy, Config.fetchPolicy, hmode]
  have hlength := Plan.length_le_of_selects hrequests hselections fun t ht =>
    (htables _ t htable ht).2
  refine ⟨?_, ?_, fun p' _ fetched => ?_⟩
  · rw [run_window hcalm hjoins hp, hvalue, if_pos (pagesSufficeInTurn_of_length_le hpageSize
      fun s hs => hpages ▸ (hlength s hs).trans (Nat.le_succ _))]
    exact congrArg Except.ok (Plan.finish_withWindow hsize hitems)
  · refine asks_findMany (q := { q with limit, offset }) hjoins fun p' hp' r hr page hpage n hn => ?_
    rw [plan_window hp] at hp'
    obtain rfl := Except.ok.inj hp'
    subst hpage
    cases hfetch : (p.withWindow limit (offset.getD 0)).directives.fetchLimit with
    | none =>
      rw [hfetch] at hr
      cases hr.symm.trans hn
    | some l =>
      rw [hfetch] at hr
      obtain ⟨k, hk, hpos, hle⟩ := hr
      obtain rfl := Option.some.inj (hk.symm.trans hn)
      exact ⟨hpos, hle.trans (fetchLimit_le p _ _ l hfetch)⟩
  · unfold Plan.filterRows
    split
    · exact List.length_filter_le _ _
    · exact le_refl _

/-- The second row of the teams z and x, in this order. There is an index query for each team, and a page
of one row each time. -/
theorem findMany_window_teams :
    let user : ModelDef :=
      { name := "user", table := "users", primaryKey := { partition := "id" }
        indexes := [⟨"by_team", { partition := "team" }⟩] }
    let store := (Memory.ofSchema (.ofModels [user]) (some 1)).seed "users"
      [.map [("id", .str "a"), ("team", .str "x")], .map [("id", .str "b"), ("team", .str "x")],
        .map [("id", .str "c"), ("team", .str "z")]]
    let db : Database :=
      { resolver := (Schema.ofModels [user]).resolver, config := { pageMode := .unbounded }
        horizon := 3 }
    let q : FindQuery :=
      { model := "user", conditions := [⟨"team", some "in", .list [.str "z", .str "x"], none⟩] }
    ((db.findMany { q with limit := some 1, offset := some 1 }).run.run Memory.receive
      { store }).1 = .ok [[("id", .str "a"), ("team", .str "x")]] := by
  intro user store db q
  have htables : ∀ field ∈ store.tables,
      field.2.KeysApart field.2.items ∧ field.2.items.length ≤ db.horizon := by decide +kernel
  have hrows : ((db.findMany { q with limit := none, offset := none }).run.run Memory.receive
      { store }).1 = .ok [[("id", .str "c"), ("team", .str "z")],
        [("id", .str "a"), ("team", .str "x")], [("id", .str "b"), ("team", .str "x")]] := by
    decide +kernel
  exact (findMany_window (w := { store }) (q := q) (by decide +kernel)
    ⟨by decide +kernel, by decide +kernel⟩ (by decide +kernel)
    (fun name t _ ht => htables _ (Fields.mem_of_get?_eq_some ht)) (by decide +kernel) hrows
    (by decide +kernel) (some 1) (some 1)).1

theorem pagesSufficeInTurn_policy (hvalid : db.config.validate = .ok ()) {pageSize : Option Nat}
    (hpageSize : pageSize ≠ some 0) {selections : List Selection}
    (hlength : ∀ s ∈ selections, s.rows.length ≤ db.horizon) {limit : Option Nat} :
    pagesSufficeInTurn pageSize (db.policy.furtherPages + 1) limit selections = true ↔
      db.config.pageMode = .unbounded ∨
        pagesSufficeInTurn pageSize db.config.maxPages limit selections = true := by
  rw [policy, Config.fetchPolicy]
  cases hmode : db.config.pageMode with
  | throw =>
    have hpages : db.config.maxPages ≠ 0 := fun hzero => by
      rw [Config.validate, if_pos hzero] at hvalid
      cases hvalid
    simp [Nat.sub_one_add_one hpages]
  | unbounded =>
    simpa using pagesSufficeInTurn_of_length_le hpageSize fun s hs =>
      (hlength s hs).trans (Nat.le_succ _)

/-- If a query finds rows without limit, it finds rows under a limit as well, unless the limit goes to
the store together with a filter. Then it may run out of pages: if the keys of the rows are apart, it
finds rows exactly if the pages that it may take suffice, or pages are followed without limit. -/
theorem findMany_limit (hvalid : db.config.validate = .ok ()) (hcalm : w.store.IsCalm)
    (hpageSize : w.store.pageSize ≠ some 0) (hjoins : q.joins = []) {rows : List Item}
    (hrows : ((db.findMany { q with limit := none }).run.run Memory.receive w).1 = .ok rows)
    (limit : Option Nat) :
    ∃ p requests selections, db.plan { q with limit } = .ok p ∧ p.pageRequests = .ok requests ∧
      List.Forall₂ w.store.Selects requests selections ∧
      let result := ((db.findMany { q with limit }).run.run Memory.receive w).1
      ((∃ found, result = .ok found) ∨ result = .error db.policy.exhausted ∧
        p.directives.fetchLimit ≠ none ∧ ∃ request ∈ requests, request.filter ≠ none) ∧
      ((∀ t, Fields.get? w.store.tables p.table = some t →
          t.KeysApart t.items ∧ t.items.length ≤ db.horizon) →
        ((∃ found, result = .ok found) ↔ db.config.pageMode = .unbounded ∨
          pagesSufficeInTurn w.store.pageSize db.config.maxPages p.directives.fetchLimit
            selections = true)) ∧
      (limit = some 1 →
        ((db.findOne q).run.run Memory.receive w).1 = result.map List.head?) := by
  obtain ⟨p, fetched, hp, hfetched, rfl⟩ := exists_fetched hcalm hjoins hrows
  obtain ⟨requests, selections, hrequests, hselections, hcases⟩ := Plan.exists_requests hfetched
  have hresult := run_window hcalm hjoins hp limit q.offset
  refine ⟨_, requests, selections, plan_window hp limit q.offset, hrequests, hselections, ?_,
    fun htable => ?_, ?_⟩
  · rw [hresult]
    rcases hcases (p.withWindow limit (q.offset.getD 0)).directives.fetchLimit with
      ⟨items, hitems⟩ | ⟨hfault, hfilter⟩
    · rw [hitems]
      exact .inl ⟨_, rfl⟩
    · rw [hfault]
      exact .inr ⟨rfl, hfilter⟩
  · obtain ⟨items, -, hvalue⟩ := Plan.value_fetch hcalm hpageSize hfetched
      (fun t ht => (htable t ht).1) hrequests hselections
      (p.withWindow limit (q.offset.getD 0)).directives.fetchLimit
    have hlength := Plan.length_le_of_selects hrequests hselections fun t ht => (htable t ht).2
    rw [← pagesSufficeInTurn_policy hvalid hpageSize hlength, hresult, hvalue]
    split
    · rename_i hsuffice
      exact iff_of_true ⟨_, rfl⟩ hsuffice
    · rename_i hshort
      exact iff_of_false (fun ⟨_, hfound⟩ => by cases hfound) hshort
  · rintro rfl
    unfold findOne
    rw [Run.run_bind]
    cases ((db.findMany { q with limit := some 1 }).run.run Memory.receive w).1 <;> rfl

/-- One row of the team x. The index query has no filter, so it succeeds as it does without limit. -/
theorem findMany_limit_team :
    let user : ModelDef :=
      { name := "user", table := "users", primaryKey := { partition := "id" }
        indexes := [⟨"by_team", { partition := "team" }⟩] }
    let store := (Memory.ofSchema (.ofModels [user]) (some 1)).seed "users"
      [.map [("id", .str "a"), ("team", .str "x")], .map [("id", .str "b"), ("team", .str "x")]]
    let db : Database :=
      { resolver := (Schema.ofModels [user]).resolver, config := { maxPages := 2 } }
    let q : FindQuery := { model := "user", conditions := [⟨"team", none, .str "x", none⟩] }
    ∃ found, ((db.findMany { q with limit := some 1 }).run.run Memory.receive { store }).1 =
      .ok found := by
  intro user store db q
  have hrows : ((db.findMany { q with limit := none }).run.run Memory.receive { store }).1 =
      .ok [[("id", .str "a"), ("team", .str "x")], [("id", .str "b"), ("team", .str "x")]] := by
    decide +kernel
  have hfilters : (db.plan { q with limit := some 1 } >>= fun p =>
      p.pageRequests.map fun requests => requests.all fun request => request.filter = none) =
        .ok true := by decide +kernel
  obtain ⟨p, requests, selections, hp, hrequests, -, hcases, -⟩ :=
    findMany_limit (w := { store }) (q := q) (by decide +kernel)
      ⟨by decide +kernel, by decide +kernel⟩ (by decide +kernel) (by decide +kernel) hrows (some 1)
  refine hcases.resolve_right fun ⟨_, _, request, hrequest, hfilter⟩ => hfilter ?_
  rw [hp] at hfilters
  obtain ⟨_, hall, htrue⟩ := exists_of_map_eq_ok hfilters
  obtain rfl := Except.ok.inj (hrequests.symm.trans hall)
  simpa using List.all_eq_true.mp htrue request hrequest

/-- Asking for one row can fail where asking for all succeeds. The filter drops the first row, which is
all that a page for one row looks at. -/
theorem not_findMany_limit :
    let user : ModelDef :=
      { name := "user", table := "users", primaryKey := { partition := "id" } }
    let store := (Memory.ofSchema (.ofModels [user]) none).seed "users"
      [.map [("id", .num (.int 1)), ("name", .str "ada")],
        .map [("id", .num (.int 2)), ("name", .str "bob")]]
    let db : Database :=
      { resolver := (Schema.ofModels [user]).resolver, config := { maxPages := 1 } }
    let q : FindQuery := { model := "user", conditions := [⟨"name", none, .str "bob", none⟩] }
    db.config.validate = .ok () ∧
      ((db.findMany q).run.run Memory.receive { store }).1 =
        .ok [[("id", .num (.int 2)), ("name", .str "bob")]] ∧
      ((db.findMany { q with limit := some 1 }).run.run Memory.receive { store }).1 =
        .error (.pageLimit 1) ∧
      ((db.findOne q).run.run Memory.receive { store }).1 = .error (.pageLimit 1) := by
  decide +kernel

end Database

end KeyedQuery
