import KeyedQuery.Proofs.Database.KeyReads
import KeyedQuery.Proofs.Database.RowKeys
import KeyedQuery.Proofs.Plan.Sources
import KeyedQuery.Transaction.Basic

/-!
# Reading without writes

A transaction that has written nothing asks the store as a plain read does, and then looks for the key in
the row that it has got, to see whether a write to that row is buffered (`Transaction.run_findOne_empty`).
The row is the one that the query returns, so the key is not in it if the query leaves a key attribute
out, and the read fails. Else the transaction passes on what was read
(`Transaction.findOne_empty_eq_iff`).
-/

namespace KeyedQuery

/-- The key of a row is told if it is in the row, and otherwise the fault names an attribute that is
not. -/
theorem Database.rowKey_cases (model : String) (keys : KeySchema) (row : Item) :
    (∃ key, rowKey model keys row = .ok key) ∧ keys.IsIn row ∨
    ∃ a ∈ keys.attributes, Value.isMissing (Fields.get? row a) = true ∧
      rowKey model keys row = .error (lacksKeyAttribute model a) := by
  unfold rowKey
  rcases Table.keyOf_cases { keys } row with ⟨hok, hin⟩ | ⟨a, ha, hmissing, herror⟩
  · exact .inl ⟨⟨_, by rw [hok]; rfl⟩, hin⟩
  · exact .inr ⟨a, ha, hmissing, by rw [herror]; rfl⟩

/-! ## Reads -/

variable {db : Database} {q : FindQuery} {table : String} {keys : KeySchema}

/-- The first row of a query has what the query retains as it is stored. -/
theorem Database.ensures_findOne_shows (db : Database) {tables : Fields Table}
    {pageSize : Option Nat} {t : Table} {names : List String}
    (htable : db.resolver.table q.model = .ok table)
    (ht : Fields.get? tables table = some t) (h : q.Retains db.resolver names) :
    Run.Ensures Memory.receive (Memory.Holds tables pageSize False) (db.findOne q)
      (fun found => ∀ row, found = some row → row.Shows (· ∈ t.items) names) (fun _ => True) := by
  refine ensures_findOne_of_fetch h fun p hp => ?_
  obtain rfl := Except.ok.inj (htable.symm.trans (Plan.follows_of_ofQuery hp).table)
  exact p.ensures_fetch_mem ht _

namespace Transaction

/-- What a transaction without writes makes of what a plain read finds: it tells the key of the row. -/
def passOn (model : String) (keys : KeySchema) : Option Item → Except Fault (Option Item)
  | none => .ok none
  | some row => (Database.rowKey model keys row).map fun _ => some row

/-- A transaction that has written nothing reads as a plain read does, up to the key of the row. -/
theorem run_findOne_empty {σ : Type} (client : Client σ) (hname : q.model ≠ "")
    (htable : db.resolver.table q.model = .ok table)
    (hkeys : db.resolver.primaryKey q.model = .ok keys) (w : World σ) :
    (findOne db {} q).run.run client w =
      (((db.findOne q).run.run client w).1.bind (passOn q.model keys),
        ((db.findOne q).run.run client w).2) := by
  unfold findOne
  rw [htable]
  show (Run.ofExcept (normalizeAll db.resolver q.model q.conditions) >>= _).run.run client w = _
  cases hconditions : normalizeAll db.resolver q.model q.conditions with
  | error fault =>
    have hplain : db.findOne q = Run.ofExcept (.error fault) := by
      unfold Database.findOne Database.findMany Database.plan
      rw [Plan.ofQuery_eq_error (q := { q with limit := some 1 }) db.config hname htable hkeys
        hconditions]
      rfl
    rw [hplain]
    rfl
  | ok conditions =>
    show (db.findOne q >>= _).run.run client w = _
    rw [Run.run_bind]
    cases ((db.findOne q).run.run client w).1 with
    | error fault => rfl
    | ok found =>
      cases found with
      | none => rfl
      | some row =>
        dsimp only
        rw [hkeys]
        show (Run.ofExcept (Database.rowKey q.model keys row) >>= _).run.run client _ = _
        simp only [Except.bind, passOn]
        cases Database.rowKey q.model keys row <;> rfl

/-- A row that is found is passed on exactly if its key is in it. -/
theorem passOn_eq_iff (model : String) (keys : KeySchema) (row : Item) :
    passOn model keys (some row) = .ok (some row) ↔ keys.IsIn row := by
  unfold passOn
  dsimp only
  rcases Database.rowKey_cases model keys row with ⟨⟨key, hkey⟩, hin⟩ | ⟨a, ha, hmissing, herror⟩
  · simp [hkey, Except.map, hin]
  · rw [herror]
    refine ⟨fun h => (nomatch h), fun hin => ?_⟩
    rw [hin a ha] at hmissing
    cases hmissing

/-- A transaction that has written nothing leaves the store and the record as a plain read does, and ends
as it does exactly if the row that is found, if any, has a value for every key attribute; otherwise it
fails for want of such an attribute. If the stored rows have values for the key attributes, and the query
neither leaves one out nor attaches partners under it, the two reads always end alike. -/
theorem findOne_empty_eq_iff {s : Schema} {q : FindQuery} {d : ModelDef}
    (hmodel : s.model? q.model = some d) (hname : q.model ≠ "") (config : Config) (horizon : Nat)
    (w : World Memory) :
    let db : Database := ⟨s.resolver, config, horizon⟩
    let plain := (db.findOne q).run.run Memory.receive w
    let inside := (findOne db {} q).run.run Memory.receive w
    inside.2 = plain.2 ∧
      (inside.1 = plain.1 ↔ ∀ row, plain.1 = .ok (some row) → d.primaryKey.IsIn row) ∧
      (∀ row, plain.1 = .ok (some row) → ¬d.primaryKey.IsIn row →
        ∃ a ∈ d.primaryKey.attributes, Value.isMissing (Fields.get? row a) = true ∧
          inside.1 = .error (Database.lacksKeyAttribute q.model a)) ∧
      (∀ t, Fields.get? w.store.tables d.table = some t →
        (∀ row ∈ t.items, d.primaryKey.IsIn row) →
        q.Retains s.resolver d.primaryKey.attributes → inside.1 = plain.1) := by
  intro db plain inside
  have hinside : inside = (plain.1.bind (passOn q.model d.primaryKey), plain.2) :=
    run_findOne_empty Memory.receive hname (s.resolver_table hmodel) (s.resolver_primaryKey hmodel) w
  have hiff : inside.1 = plain.1 ↔ ∀ row, plain.1 = .ok (some row) → d.primaryKey.IsIn row := by
    rw [hinside]
    cases plain.1 with
    | error fault => simp [Except.bind]
    | ok found =>
      cases found with
      | none => simp [Except.bind, passOn]
      | some row => simpa [Except.bind] using passOn_eq_iff q.model d.primaryKey row
  refine ⟨by rw [hinside], hiff, fun row hrow hnot => ?_, fun t ht hstored hretains => ?_⟩
  · rcases Database.rowKey_cases q.model d.primaryKey row with ⟨-, hin⟩ | ⟨a, ha, hmissing, herror⟩
    · exact absurd hin hnot
    · refine ⟨a, ha, hmissing, ?_⟩
      rw [hinside, hrow]
      simp only [Except.bind, passOn, herror, Except.map]
  · refine hiff.mpr fun row hrow => ?_
    have hshows := (db.ensures_findOne_shows (s.resolver_table hmodel) ht hretains
      w ⟨rfl, rfl, False.elim, False.elim⟩).2
    rw [show ((db.findOne q).run.run Memory.receive w).1 = .ok (some row) from hrow] at hshows
    obtain ⟨source, hsource, hagree⟩ := hshows row rfl
    intro a ha
    rw [hagree a ha]
    exact hstored source hsource a ha

/-- Two users and a query for the names only. The key is not in the row that is found. -/
theorem findOne_empty_eq_iff_users :
    let user : ModelDef := { name := "user", table := "users", primaryKey := { partition := "id" } }
    let store := (Memory.ofSchema (.ofModels [user]) none).seed "users"
      [.map [("id", .num (.int 1)), ("name", .str "ada")],
        .map [("id", .num (.int 2)), ("name", .str "bob")]]
    let q : FindQuery := { model := "user", select := some ["name"] }
    let db : Database := ⟨(Schema.ofModels [user]).resolver, {}, 2⟩
    let plain := (db.findOne q).run.run Memory.receive { store }
    let inside := (findOne db {} q).run.run Memory.receive { store }
    inside.2 = plain.2 ∧
      (inside.1 = plain.1 ↔ ∀ row, plain.1 = .ok (some row) → user.primaryKey.IsIn row) ∧
      (∀ row, plain.1 = .ok (some row) → ¬user.primaryKey.IsIn row →
        ∃ a ∈ user.primaryKey.attributes, Value.isMissing (Fields.get? row a) = true ∧
          inside.1 = .error (Database.lacksKeyAttribute q.model a)) ∧
      (∀ t, Fields.get? store.tables user.table = some t →
        (∀ row ∈ t.items, user.primaryKey.IsIn row) →
        q.Retains (Schema.ofModels [user]).resolver user.primaryKey.attributes →
          inside.1 = plain.1) :=
  findOne_empty_eq_iff (s := .ofModels [_]) (by decide +kernel) (by decide) {} 2 _

/-- A query for the name of user 1 finds it in a plain read and fails inside a transaction that has
written nothing. -/
theorem not_findOne_empty_eq :
    let user : ModelDef := { name := "user", table := "users", primaryKey := { partition := "id" } }
    let store := (Memory.ofSchema (.ofModels [user]) none).seed "users"
      [.map [("id", .num (.int 1)), ("name", .str "ada")]]
    let q : FindQuery :=
      { model := "user", conditions := [⟨"id", none, .num (.int 1), none⟩],
        select := some ["name"] }
    let db : Database := ⟨(Schema.ofModels [user]).resolver, {}, 1⟩
    ((db.findOne q).run.run Memory.receive { store }).1 = .ok (some [("name", .str "ada")]) ∧
      ((findOne db {} q).run.run Memory.receive { store }).1 =
        .error (Database.lacksKeyAttribute "user" "id") := by
  decide +kernel

end Transaction

end KeyedQuery
