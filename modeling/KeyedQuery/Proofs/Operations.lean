import KeyedQuery.Proofs.Loader.Admission
import KeyedQuery.Proofs.Plan.Execution
import KeyedQuery.Proofs.Transaction.Updates

/-!
# Operations check first

Whatever a database, a transaction or a loader is asked for, what is wrong with the model, the operators or
the key shows before anything is sent. A read is planned first, and its plan can be carried out. An update
looks for the row first, and a delete for the rows, but with a plan for the model there are also a table and
a key for it, so the second look at them succeeds. `Database.checks_before_requests` puts this together for
all operations, and loads are in it as they run next to each other.
-/

namespace KeyedQuery

open Run (ChecksFirst IsPast StaysIn)

variable {σ : Type} {client : Client σ} {db : Database} {q : FindQuery}

namespace Database

/-! ## Reads -/

theorem endsPast_policy (db : Database) : db.policy.EndsPast :=
  FetchPolicy.endsPast_fetchPolicy db.config db.horizon

theorem isPast_rows {p : Plan} (hp : db.plan q = .ok p) : IsPast (p.rows db.policy) :=
  (Plan.isExecutable_of_ofQuery hp).rows db.endsPast_policy

theorem isPast_countRows {p : Plan} (hp : db.plan q = .ok p) : IsPast (p.countRows db.policy) :=
  (Plan.isExecutable_of_ofQuery hp).countRows db.endsPast_policy

theorem checksFirst_findMany (db : Database) (q : FindQuery) : ChecksFirst (db.findMany q) :=
  .ofExcept_bind fun _ hp => .of_isPast (isPast_rows hp)

theorem checksFirst_findOne (db : Database) (q : FindQuery) : ChecksFirst (db.findOne q) :=
  (db.checksFirst_findMany { q with limit := some 1 }).bind fun _ _ _ _ => .pure _

theorem checksFirst_count (db : Database) (q : FindQuery) : ChecksFirst (db.count q) :=
  .ofExcept_bind fun _ hp => .of_isPast (isPast_countRows hp)

/-- A model has a table and a key if a query for it comes to rows. -/
theorem exists_table_of_findMany {w : World σ} {rows : List Item}
    (h : ((db.findMany q).run.run client w).1 = .ok rows) : ∃ table keys,
      db.resolver.table q.model = .ok table ∧ db.resolver.primaryKey q.model = .ok keys := by
  obtain ⟨p, hp, -⟩ := Run.exists_of_run_ofExcept_bind_eq_ok h
  exact ⟨p.table, p.keys, (Plan.follows_of_ofQuery hp).table, Plan.keys_of_ofQuery hp⟩

theorem exists_table_of_findOne {w : World σ} {found : Option Item}
    (h : ((db.findOne q).run.run client w).1 = .ok found) : ∃ table keys,
      db.resolver.table q.model = .ok table ∧ db.resolver.primaryKey q.model = .ok keys := by
  obtain ⟨rows, hrows, -⟩ := Run.exists_of_run_bind_eq_ok h
  exact exists_table_of_findMany (q := { q with limit := some 1 }) hrows

/-! ## Writes -/

theorem isPast_write (db : Database) (r : Request) : IsPast (db.write r) :=
  (db.config.retry.isPast_request r).bind fun _ => (StaysIn.count _ _).bind fun _ => .pure _

theorem failsPast_rowKey (model : String) (keys : KeySchema) (item : Item) :
    FailsPast (rowKey model keys item) :=
  .mapError _ fun _ => id

theorem failsPast_patchBetween (prev next : Item) : FailsPast (patchBetween prev next) :=
  .mapError _ fun reason => by cases reason <;> exact id

theorem checksFirst_create (db : Database) (model : String) (data : Item) :
    ChecksFirst (db.create model data) :=
  .ofExcept_bind fun _ _ => .of_isPast ((db.isPast_write _).bind fun _ => .pure _)

theorem checksFirst_update (db : Database) (model : String) (conditions : List Condition)
    (patch : Item) : ChecksFirst (db.update model conditions patch) := by
  refine (db.checksFirst_findOne _).bind fun client w found hfound => ?_
  cases found with
  | none => exact .pure _
  | some current =>
    obtain ⟨_, _, htable, hkeys⟩ := exists_table_of_findOne hfound
    refine StaysIn.ofExcept_bind (.of_eq_ok htable) fun table => ?_
    refine StaysIn.ofExcept_bind (.of_eq_ok hkeys) fun keys => ?_
    refine StaysIn.ofExcept_bind (failsPast_rowKey _ _ _) fun key => ?_
    refine StaysIn.ofExcept_bind (failsPast_patchBetween _ _) fun change => ?_
    exact (db.isPast_write _).bind fun _ => .pure _

theorem isPast_deleteRows (db : Database) (model table : String) (keys : KeySchema) :
    ∀ rows, IsPast (db.deleteRows model table keys rows)
  | [] => .pure _
  | _ :: rest => StaysIn.ofExcept_bind (failsPast_rowKey _ _ _) fun _ =>
      (db.isPast_write _).bind fun _ => isPast_deleteRows db model table keys rest

theorem checksFirst_delete (db : Database) (model : String) (conditions : List Condition) :
    ChecksFirst (db.delete model conditions) := by
  refine (db.checksFirst_findMany _).bind fun client w rows hrows => ?_
  obtain ⟨_, _, htable, hkeys⟩ := exists_table_of_findMany hrows
  refine StaysIn.ofExcept_bind (.of_eq_ok htable) fun table => ?_
  refine StaysIn.ofExcept_bind (.of_eq_ok hkeys) fun keys => ?_
  exact (db.isPast_deleteRows model table keys rows).bind fun _ => .pure _

end Database

/-! ## Transactions -/

namespace WriteBuffer

theorem failsPast_requireActive (b : WriteBuffer) : FailsPast b.requireActive := by
  unfold requireActive
  split
  · exact .ok _
  · exact .error id

theorem failsPast_pending (b : WriteBuffer) (table : String) (key : Item) :
    FailsPast (b.pending table key) :=
  b.failsPast_requireActive.bind fun _ => .ok _

theorem failsPast_stage (b : WriteBuffer) (w : Write) (key : Item) : FailsPast (b.stage w key) := by
  have hadd : FailsPast (b.add w) := b.failsPast_requireActive.bind fun _ => by
    split
    · exact .error id
    · exact .ok _
  refine b.failsPast_requireActive.bind fun _ => ?_
  split
  · exact .ok _
  · exact hadd

end WriteBuffer

namespace Transaction

theorem failsPast_seenRow? (tx : Transaction) (table : String) (key row : Item) :
    FailsPast (tx.seenRow? table key row) := by
  refine (tx.buffer.failsPast_pending table key).bind fun pending => ?_
  split <;> exact .ok _

theorem checksFirst_findOne (db : Database) (tx : Transaction) (q : FindQuery) :
    ChecksFirst (tx.findOne db q) := by
  refine .ofExcept_bind fun table _ => .ofExcept_bind fun conditions _ => .ofExcept_bind fun own _ => ?_
  cases own with
  | some row => exact .of_isPast (.pure _)
  | none =>
    refine (db.checksFirst_findOne q).bind fun client w found hfound => ?_
    cases found with
    | none => exact .pure _
    | some row =>
      obtain ⟨_, _, -, hkeys⟩ := Database.exists_table_of_findOne hfound
      refine StaysIn.ofExcept_bind (.of_eq_ok hkeys) fun keys => ?_
      exact StaysIn.ofExcept_bind (Database.failsPast_rowKey _ _ _) fun key =>
        .ofExcept (tx.failsPast_seenRow? _ _ _)

theorem failsPast_readUpdate (db : Database) (tx : Transaction) (model : String) (g : Target)
    (patch : Item) (found : Option Item) : FailsPast (tx.readUpdate db model g patch found) := by
  cases found with
  | none => exact .ok _
  | some current =>
    exact (Database.failsPast_patchBetween _ _).bind fun change =>
      (tx.buffer.failsPast_stage _ _).bind fun buffer => .ok _

theorem checksFirst_update (db : Database) (tx : Transaction) (model : String)
    (conditions : List Condition) (patch : Item) :
    ChecksFirst (tx.update db model conditions patch) := by
  rw [update_eq]
  refine .ofExcept_bind fun g _ => .ofExcept_bind fun own _ => ?_
  cases own with
  | some result => exact .of_isPast (.pure _)
  | none =>
    exact (db.checksFirst_findOne _).bind fun _ _ found _ =>
      .ofExcept (tx.failsPast_readUpdate db model g patch found)

end Transaction

/-! ## All operations -/

/-- A load that runs alone and ends with a fault about a precondition has sent nothing. -/
theorem Database.requests_runLoads_singleton (db : Database) (client : Client σ) (tick : Tick) (load : Load)
    (w : World σ) {fault : Fault}
    (hend : (db.runLoads client tick [load] w).outcomes = [some (.error fault)])
    (hprecondition : fault.IsPrecondition) :
    (db.runLoads client tick [load] w).world.requests = w.requests := by
  obtain ⟨last, hreach, houtcomes, hrequests⟩ := db.exists_reaches_runLoads client tick [load] w
  have hchecked := Loads.checked_ofList db tick [load] w
  rw [houtcomes] at hend
  obtain ⟨⟨other, hother, hrefused⟩, -⟩ :=
    hreach.endsAtOnce hchecked rfl (List.head_eq_of_cons_eq hend) hprecondition
  obtain rfl : load = other := Option.some.inj hother
  rw [hrequests]
  refine hreach.requests_eq hchecked ?_
  rintro model ⟨admitted, hmem, -, key, hkey⟩
  obtain rfl := List.mem_singleton.mp hmem
  rw [hrefused] at hkey
  cases hkey

/-- Faults about preconditions, which are missing tables, missing primary keys, unsupported operators and
missing key conditions, come before any request. This holds of all reads and writes by model, of those of a
transaction, and of loads: one that ends with such a fault does so in the event in which it comes to register,
and the store receives nothing in it, whatever other loads are about. One that runs alone sends nothing at
all. Behind planning there is nothing left to be found missing: a plan can be carried out, and a query is not
carried out and not counted for such a fault exactly if it is not planned for it. -/
theorem Database.checks_before_requests (db : Database) :
    ((∀ q, ChecksFirst (db.findMany q)) ∧ (∀ q, ChecksFirst (db.findOne q)) ∧
      (∀ q, ChecksFirst (db.count q)) ∧ (∀ model data, ChecksFirst (db.create model data)) ∧
      (∀ model conditions patch, ChecksFirst (db.update model conditions patch)) ∧
      ∀ model conditions, ChecksFirst (db.delete model conditions)) ∧
    (∀ tx : Transaction, (∀ q, ChecksFirst (tx.findOne db q)) ∧
      (∀ model data, ChecksFirst (Run.ofExcept (tx.create db model data))) ∧
      (∀ model conditions patch, ChecksFirst (tx.update db model conditions patch)) ∧
      ∀ model conditions, ChecksFirst (Run.ofExcept (tx.delete db model conditions))) ∧
    (∀ {σ : Type} (client : Client σ) (tick : Tick) (w : World σ) (fault : Fault), fault.IsPrecondition →
      (∀ (loads : List Load) (i : Nat),
        (db.runLoads client tick loads w).outcomes[i]? = some (some (.error fault)) →
          Loads.EndsAtOnce db client tick loads (.ofList tick loads w) i fault) ∧
      ∀ load : Load, (db.runLoads client tick [load] w).outcomes = [some (.error fault)] →
        (db.runLoads client tick [load] w).world.requests = w.requests) ∧
    ∀ q : FindQuery, (∀ p, db.plan q = .ok p → p.IsExecutable) ∧
      ∀ {σ : Type} (client : Client σ) (w : World σ) (fault : Fault), fault.IsPrecondition →
        (((db.findMany q).run.run client w).1 = .error fault ↔ db.plan q = .error fault) ∧
        (((db.count q).run.run client w).1 = .error fault ↔ db.plan q = .error fault) := by
  refine ⟨⟨db.checksFirst_findMany, db.checksFirst_findOne, db.checksFirst_count, db.checksFirst_create,
    db.checksFirst_update, db.checksFirst_delete⟩, fun tx => ⟨tx.checksFirst_findOne db, fun _ _ => .ofExcept _,
    tx.checksFirst_update db, fun _ _ => .ofExcept _⟩, fun client tick w fault hprecondition => ⟨?_, ?_⟩,
    fun q => ⟨fun p hp => Plan.isExecutable_of_ofQuery hp, fun client w fault hprecondition => ⟨?_, ?_⟩⟩⟩
  · intro loads i hend
    obtain ⟨last, hreach, houtcomes, -⟩ := db.exists_reaches_runLoads client tick loads w
    rw [houtcomes, List.getElem?_map, Option.map_eq_some_iff] at hend
    obtain ⟨j, hj, hend⟩ := hend
    obtain ⟨hlt, rfl⟩ := List.getElem?_eq_some_iff.mp hj
    rw [List.getElem_range] at hend
    exact (hreach.endsAtOnce (Loads.checked_ofList db tick loads w) rfl hend hprecondition).2
  · exact fun load hend => db.requests_runLoads_singleton client tick load w hend hprecondition
  · exact Run.run_ofExcept_bind_eq_error_iff client w (fun _ => isPast_rows) hprecondition
  · exact Run.run_ofExcept_bind_eq_error_iff client w (fun _ => isPast_countRows) hprecondition

/-- An operator that there is not, a model that there is not, an update in a transaction that fixes no key,
and a load of a model that there is not: the store of the users receives nothing. -/
theorem Database.checks_before_requests_users :
    let user : ModelDef := { name := "user", table := "users", primaryKey := { partition := "id" } }
    let store := (Memory.ofSchema (.ofModels [user]) none).seed "users" [.map [("id", .num (.int 1))]]
    let db : Database := { resolver := (Schema.ofModels [user]).resolver }
    let w : World Memory := { store }
    let found := (db.findMany
      { model := "user", conditions := [⟨"id", some "near", .num (.int 1), none⟩] }).run.run Memory.receive w
    let dropped := (db.delete "order" []).run.run Memory.receive w
    let changed := (({} : Transaction).update db "user" [] [("n", .num (.int 1))]).run.run Memory.receive w
    let loaded := db.runLoads Memory.receive .turn [⟨"order", .id (.num (.int 1)), none⟩] w
    (found.1 = .error (.unsupportedOperator "near") ∧ found.2.requests = []) ∧
      (dropped.1 = .error (.missingTable "order") ∧ dropped.2.requests = []) ∧
      (changed.1 = .error (.missingKeyCondition "user") ∧ changed.2.requests = []) ∧
      loaded.outcomes = [some (.error (.missingPrimaryKey "order"))] ∧ loaded.world.requests = [] := by
  intro user store db w found dropped changed loaded
  obtain ⟨⟨hfind, -, -, -, -, hdelete⟩, htx, hloads, -⟩ := db.checks_before_requests
  have hfound : found.1 = .error (.unsupportedOperator "near") := by decide +kernel
  have hdropped : dropped.1 = .error (.missingTable "order") := by decide +kernel
  have hchanged : changed.1 = .error (.missingKeyCondition "user") := by decide +kernel
  have hloaded : loaded.outcomes = [some (.error (.missingPrimaryKey "order"))] := by decide +kernel
  exact ⟨⟨hfound, hfind _ _ _ w _ hfound trivial⟩, ⟨hdropped, hdelete _ _ _ _ w _ hdropped trivial⟩,
    ⟨hchanged, (htx {}).2.2.1 _ _ _ _ _ w _ hchanged trivial⟩, hloaded,
    (hloads Memory.receive .turn w (.missingPrimaryKey "order") trivial).2 _ hloaded⟩

end KeyedQuery
