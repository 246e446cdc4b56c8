import KeyedQuery.Proofs.Plan.Sources

/-!
# Selecting before joining

A plan restricts its rows to the selected fields before it joins them, and keeps the fields that its joins
look at. Its joins then read, overwrite and add attributes of restricted rows, and what one attaches another
may look up. They do the same as with whole rows (`Plan.joinRows_keepFields`): the dialogue is the same, and
its rows are restricted to what was kept and to what the joins attach under. So a query that selects runs like
the query for whole rows (`Database.findMany_select`).
-/

namespace KeyedQuery

variable {names : List String} {policy : FetchPolicy}

/-! ## Restricted rows -/

theorem Item.get?_keepFields_eq (names : List String) (row : Item) (a : String) :
    Fields.get? (row.keepFields names) a = if a ∈ names then Fields.get? row a else none := by
  split
  · rename_i ha
    exact get?_keepFields ha
  · rename_i ha
    refine Fields.get?_eq_none_iff.mpr fun hmem => ha ?_
    obtain ⟨field, hfield, rfl⟩ := List.mem_map.mp hmem
    simpa using (List.mem_filter.mp hfield).2

/-- A value put over a restricted row is put over the row before it is restricted, whatever the row has under
the name. -/
theorem Item.insert_keepFields {row : Item} (hrow : Fields.Ordered row) (label : String) (v : Value) :
    Fields.insert (row.keepFields names) label v =
      Item.keepFields (names ++ [label]) (Fields.insert row label v) := by
  refine ((hrow.filter _).insert label v).ext ((hrow.insert label v).filter _) fun a => ?_
  show Fields.get? (Fields.insert (row.keepFields names) label v) a =
    Fields.get? (Item.keepFields (names ++ [label]) (Fields.insert row label v)) a
  rw [Fields.get?_insert, get?_keepFields_eq, get?_keepFields_eq, Fields.get?_insert]
  by_cases ha : label = a
  · simp [ha]
  · simp [ha, Ne.symm ha]

/-! ## One join -/

/-- Values of a field that is kept are found in the restricted rows. -/
theorem distinctFieldValues_keepFields {field : String} (h : field ∈ names) (rows : List Item) :
    distinctFieldValues field (rows.map (Item.keepFields names)) = distinctFieldValues field rows := by
  unfold distinctFieldValues
  rw [List.filterMap_map]
  have hsame : ((fun row => Fields.get? row field) ∘ Item.keepFields names) =
      fun row => Fields.get? row field := by
    ext1 row
    exact Item.get?_keepFields h
  rw [hsame]

namespace ResolvedJoin

variable {j : ResolvedJoin}

/-- The target rows of some values. Nothing is sent for no values. -/
def lookUp (policy : FetchPolicy) (j : ResolvedJoin) (strategy : Strategy) (values : List Value) :
    Run (List Item) :=
  if values.isEmpty then pure []
  else j.fetch policy values (strategy.forValues values.length j.keys)

theorem attach_eq_map (policy : FetchPolicy) (j : ResolvedJoin) (strategy : Strategy)
    (rows : List Item) : j.attach policy strategy rows =
      (fun targets => rows.map (j.attachTo targets)) <$>
        j.lookUp policy strategy (distinctFieldValues j.localField rows) := by
  unfold attach lookUp
  dsimp only
  split
  · rfl
  · rw [bind_pure_comp]

theorem attachTo_keepFields (hlocal : j.localField ∈ names) (targets : List Item) {row : Item}
    (hrow : Fields.Ordered row) : j.attachTo targets (row.keepFields names) =
      (j.attachTo targets row).keepFields (names ++ [j.label]) := by
  have hpartners : j.partners targets (row.keepFields names) = j.partners targets row := by
    unfold partners Item.group?
    rw [Item.get?_keepFields hlocal]
  rw [attachTo, hpartners, Item.insert_keepFields hrow]
  rfl

end ResolvedJoin

/-! ## One join after another -/

namespace Plan

variable {p : Plan}

/-- Joining restricted rows is joining whole rows and restricting what comes of it. Every join adds the name
that it attaches under to those that are kept. Nothing that a whole row had under this name is left by then,
so later joins find the same there. -/
theorem joinRows_keepFields (policy : FetchPolicy) {joins : List (ResolvedJoin × Strategy)}
    {rows : List Item} (hrows : ∀ row ∈ rows, Fields.Ordered row)
    (hjoins : ∀ join ∈ joins, join.1.localField ∈ names) :
    joinRows policy joins (rows.map (Item.keepFields names)) =
      List.map (Item.keepFields (names ++ joins.map fun join => join.1.label)) <$>
        joinRows policy joins rows := by
  induction joins generalizing names rows with
  | nil => simp [joinRows]
  | cons join joins ih =>
    obtain ⟨j, strategy⟩ := join
    have hlocal : j.localField ∈ names := hjoins _ List.mem_cons_self
    rw [joinRows, joinRows, ResolvedJoin.attach_eq_map, ResolvedJoin.attach_eq_map,
      distinctFieldValues_keepFields hlocal, bind_map_left, bind_map_left, map_bind]
    refine bind_congr fun targets => ?_
    have hattached : (rows.map (Item.keepFields names)).map (j.attachTo targets) =
        (rows.map (j.attachTo targets)).map (Item.keepFields (names ++ [j.label])) := by
      rw [List.map_map, List.map_map]
      exact List.map_congr_left fun row hrow =>
        j.attachTo_keepFields hlocal targets (hrows row hrow)
    have hordered : ∀ row ∈ rows.map (j.attachTo targets), Fields.Ordered row := by
      intro row hrow
      obtain ⟨plain, hplain, rfl⟩ := List.mem_map.mp hrow
      exact (hrows plain hplain).insert _ _
    rw [hattached, ih hordered fun join hjoin =>
      List.mem_append_left _ (hjoins join (List.mem_cons_of_mem _ hjoin)), List.append_assoc]
    rfl

/-! ## Plans -/

/-- The plan with another selection. -/
def selecting (p : Plan) (select : Option (List String)) : Plan :=
  { p with select }

/-- The selection of a query does not matter for anything else in its plan. -/
theorem ofQuery_select (r : Resolver) (c : Config) (q : FindQuery) (select : Option (List String)) :
    ofQuery r c { q with select } =
      (ofQuery r c q).map fun p => p.selecting (select.map (List.map (r.fieldName q.model))) := by
  rw [ofQuery_eq, ofQuery_eq]
  show (partsOf r c q).map _ = _
  cases partsOf r c q <;> rfl

/-- What a plan does with the rows that it has fetched. -/
def process (p : Plan) (policy : FetchPolicy) (fetched : List Item) : Run (List Item) := do
  if p.directives.clientFilter then
    Run.count .rowsFiltered (UInt64.ofNat (fetched.length - (p.filterRows fetched).length))
  let joined ← joinRows policy (p.joins.zip p.directives.joinStrategies) (p.finish fetched)
  Run.count .finds 1
  pure joined

theorem rows_eq_bind (p : Plan) (policy : FetchPolicy) :
    p.rows policy = p.fetch policy p.directives.fetchLimit >>= p.process policy :=
  rfl

/-- What a plan with a selection shows of its rows: the selected fields, the fields that joins look at,
and what the joins attach under. -/
def shownFields (p : Plan) (select : List String) : List String :=
  select ++ p.joins.map ResolvedJoin.localField ++
    (p.joins.zip p.directives.joinStrategies).map fun join => join.1.label

/-- Whole rows are processed as restricted ones are, and restricted in the end. -/
theorem process_selecting (p : Plan) (policy : FetchPolicy) (select : List String)
    {fetched : List Item} (hfetched : ∀ row ∈ fetched, Fields.Ordered row) :
    (p.selecting (some select)).process policy fetched =
      List.map (Item.keepFields (p.shownFields select)) <$>
        (p.selecting none).process policy fetched := by
  have hjoins : joinRows policy (p.joins.zip p.directives.joinStrategies)
      ((p.selecting (some select)).finish fetched) =
        List.map (Item.keepFields (p.shownFields select)) <$>
          joinRows policy (p.joins.zip p.directives.joinStrategies)
            ((p.selecting none).finish fetched) := by
    refine joinRows_keepFields policy (fun row hrow => ?_) fun join hjoin => ?_
    · exact hfetched row (mem_of_mem_cutWindow hrow)
    · exact List.mem_append_right _ (List.mem_map_of_mem (List.of_mem_zip hjoin).1)
  have hend : (do
      let joined ← joinRows policy (p.joins.zip p.directives.joinStrategies)
        ((p.selecting (some select)).finish fetched)
      Run.count .finds 1
      pure joined) = List.map (Item.keepFields (p.shownFields select)) <$> (do
        let joined ← joinRows policy (p.joins.zip p.directives.joinStrategies)
          ((p.selecting none).finish fetched)
        Run.count .finds 1
        pure joined) := by
    rw [hjoins]
    simp
  unfold process
  by_cases hclient : p.directives.clientFilter = true
  · simp only [selecting, hclient, if_true, map_bind] at hend ⊢
    exact bind_congr fun _ => hend
  · simp only [selecting, hclient] at hend ⊢
    exact hend

end Plan

/-! ## Running -/

/-- If the rows that it fetches are ordered, a plan with a selection runs like the plan for whole rows,
and its rows are those of that plan, restricted. -/
theorem Plan.run_rows_selecting {σ : Type} {client : Client σ} {I : σ → Prop} {p : Plan}
    (hfetch : Run.Ensures client I (p.fetch policy p.directives.fetchLimit)
      (fun rows => ∀ row ∈ rows, Fields.Ordered row) (fun _ => True))
    {w : World σ} (hw : I w.store) (select : List String) :
    ((p.selecting (some select)).rows policy).run.run client w =
      (List.map (Item.keepFields (p.shownFields select)) <$>
        (p.selecting none).rows policy).run.run client w := by
  rw [rows_eq_bind, rows_eq_bind, map_bind]
  exact hfetch.run_bind_congr (fun fetched hfetched => p.process_selecting policy select hfetched) hw

/-! ## Queries -/

/-- What a query with a selection shows of its rows, by physical names: the selected fields, the fields that
its joins look at, and what the joins attach under. -/
def FindQuery.shownFields (r : Resolver) (q : FindQuery) (select : List String) : List String :=
  select.map (r.fieldName q.model) ++ q.joins.map (fun j => r.fieldName q.model j.localField) ++
    q.joins.map fun j => j.label.getD j.targetModel

theorem Plan.shownFields_of_ofQuery {r : Resolver} {c : Config} {q : FindQuery} {p : Plan}
    (h : ofQuery r c q = .ok p) (select : List String) :
    p.shownFields (select.map (r.fieldName q.model)) = q.shownFields r select := by
  obtain ⟨a, ha, rfl⟩ := exists_parts h
  have hzip : (a.plan r q).joins.zip (a.plan r q).directives.joinStrategies = a.joins :=
    (List.zip_of_prod rfl rfl).symm
  have hlocals : (a.plan r q).joins.map ResolvedJoin.localField =
      q.joins.map fun j => r.fieldName q.model j.localField :=
    (List.map_map ..).trans
      (map_eq_of_mapM_eq_ok (fun _ _ hj => (resolves_of_resolveJoin hj).localField) ha.joins)
  have hlabels : (a.joins.map fun join => join.1.label) =
      q.joins.map fun j => j.label.getD j.targetModel :=
    map_eq_of_mapM_eq_ok (fun _ _ hj => (resolves_of_resolveJoin hj).label) ha.joins
  rw [shownFields, hzip, hlocals, hlabels, FindQuery.shownFields]

/-- In a store with ordered rows, a query with a selection does to the world what the query for whole rows
does: it sends the same requests, and waits and counts alike. It ends with the same fault, or else with the
same rows in the same order, restricted to what is shown of them. -/
theorem Database.findMany_select {db : Database} {w : World Memory}
    (hordered : ∀ name t, Fields.get? w.store.tables name = some t →
      ∀ row ∈ t.items, Fields.Ordered row) (q : FindQuery) (select : List String) :
    let whole := (db.findMany { q with select := none }).run.run Memory.receive w
    (db.findMany { q with select := some select }).run.run Memory.receive w =
      (whole.1.map (List.map (Item.keepFields (q.shownFields db.resolver select))), whole.2) := by
  intro whole
  rw [← Run.run_map]
  unfold findMany plan
  rw [Plan.ofQuery_select _ _ q (some select), Plan.ofQuery_select _ _ q none]
  cases hplan : Plan.ofQuery db.resolver db.config q with
  | error fault => rfl
  | ok p =>
    have hfetch : Run.Ensures Memory.receive
        (Memory.Holds w.store.tables w.store.pageSize False)
        (p.fetch db.policy p.directives.fetchLimit) _ _ :=
      p.ensures_fetch_forall (hordered p.table) _
    have hholds : Memory.Holds w.store.tables w.store.pageSize False w.store :=
      ⟨rfl, rfl, False.elim, False.elim⟩
    rw [← Plan.shownFields_of_ofQuery hplan]
    exact Plan.run_rows_selecting hfetch hholds (select.map (db.resolver.fieldName q.model))

/-- The authors of posts are attached in the place of their identifiers, and then the teams that the authors
lead in the place of a field that is not selected. One author does not exist. -/
theorem Database.findMany_select_posts :
    let post : ModelDef := { name := "post", table := "posts", primaryKey := { partition := "id" } }
    let user : ModelDef := { name := "user", table := "users", primaryKey := { partition := "id" } }
    let team : ModelDef := { name := "team", table := "teams", primaryKey := { partition := "id" } }
    let schema := Schema.ofModels [post, user, team]
    let store := (((Memory.ofSchema schema (some 1)).seed "posts"
      [.map [("author", .str "u"), ("draft", .str "x"), ("id", .str "p"), ("title", .str "a")],
        .map [("author", .str "v"), ("draft", .str "y"), ("id", .str "q"), ("title", .str "b")]]).seed
      "users" [.map [("id", .str "u")]]).seed
      "teams" [.map [("id", .str "t"), ("lead", .map [("id", .str "u")])]]
    let db : Database := { resolver := schema.resolver, config := { pageMode := .unbounded } }
    let q : FindQuery :=
      { model := "post"
        joins :=
          [{ targetModel := "user", relation := .oneToOne, localField := "author"
             foreignField := "id", label := some "author" },
            { targetModel := "team", relation := .oneToMany, localField := "author"
              foreignField := "lead", label := some "draft" }] }
    let selected := (db.findMany { q with select := some ["title"] }).run.run Memory.receive { store }
    selected.1 = .ok
      [[("author", .map [("id", .str "u")]),
          ("draft", .list [.map [("id", .str "t"), ("lead", .map [("id", .str "u")])]]),
          ("title", .str "a")],
        [("author", .null), ("draft", .list []), ("title", .str "b")]] ∧
      selected.2 = ((db.findMany q).run.run Memory.receive { store }).2 := by
  intro post user team schema store db q selected
  have hordered : ∀ field ∈ store.tables, ∀ row ∈ field.2.items, Fields.Ordered row := by
    decide +kernel
  have hselect : selected = _ := findMany_select (w := { store })
    (fun name t ht => hordered (name, t) (Fields.mem_of_get?_eq_some ht)) q ["title"]
  exact ⟨(congrArg Prod.fst hselect).trans (by decide +kernel),
    (congrArg Prod.snd hselect).trans rfl⟩

end KeyedQuery
