import KeyedQuery.Proofs.Database.UpdateFrame
import KeyedQuery.Proofs.Store.Thinning

/-!
# What a deletion leaves

A deletion reads the rows that satisfy its conditions, and then drops one after the other by its key. The key
of a stored row is that of no other row, so each of these requests drops one row from where it is
(`Table.WellKeyed.remove_only`), and the others stay what and where they are, however many have been dropped
(`Database.exists_dropped`). `Database.delete_matches` says what this comes to: all rows that satisfy the
conditions are gone if the deletion succeeds, and nothing but some of them if it fails on the way.
-/

namespace KeyedQuery

/-! ## Tables with one of them changed -/

namespace Fields

variable {α : Type} {fs now : Fields α} {k : String} {v : α}

/-- The second fields are the first ones with a value under a name, and the same under all others. -/
def ChangesTo (fs : Fields α) (k : String) (v : α) (now : Fields α) : Prop :=
  ∀ key, get? now key = if k = key then some v else get? fs key

theorem ChangesTo.refl (h : get? fs k = some v) : fs.ChangesTo k v fs := by
  intro key
  split
  · rename_i hkey
    rw [← hkey, h]
  · rfl

theorem ChangesTo.insert (h : fs.ChangesTo k v now) (w : α) : fs.ChangesTo k w (now.insert k w) := by
  intro key
  rw [get?_insert, h key]
  split <;> rfl

end Fields

/-! ## Dropping rows -/

namespace Table

variable {t : Table} {key row : Item} {keep : Item → Bool}

theorem WellKeyed.only (h : t.WellKeyed) (keep : Item → Bool) : (t.only keep).WellKeyed where
  carries row hrow := h.carries row (List.mem_of_mem_filter hrow)
  apart := h.apart.filter keep

theorem only_congr {p q : Item → Bool} (h : ∀ row ∈ t.items, p row = q row) : t.only p = t.only q := by
  rw [Table.only, Table.only, List.filter_congr h]

theorem only_eq_self (h : ∀ row ∈ t.items, keep row = true) : t.only keep = t := by
  rw [Table.only, List.filter_eq_self.mpr h]

/-- Dropping a full key drops the rows that have it. -/
theorem Unique.remove_eq_only (h : t.Unique) (hkey : t.IsKey key) :
    t.remove key = t.only fun row => !row.hasKey key := by
  have heta : t.remove key = { t with items := (t.remove key).items } := by
    unfold Table.remove
    split <;> rfl
  rw [heta, h.items_remove hkey]
  rfl

/-- Dropping the key of a stored row drops that row alone, whatever has been dropped before. -/
theorem WellKeyed.remove_only (h : t.WellKeyed) (hrow : row ∈ t.items) (keep : Item → Bool) :
    (t.only keep).remove (t.keyOf row) = t.only fun other => decide (other ≠ row) && keep other := by
  have hkey : (t.only keep).IsKey (t.keyOf row) := isKey_keyOf (t := t.only keep) (h.carries row hrow)
  rw [(h.only keep).unique.remove_eq_only hkey, only_only]
  refine only_congr fun other hother => congrArg (· && keep other) ?_
  rw [Bool.eq_iff_iff, Bool.not_eq_true', decide_eq_true_iff]
  constructor
  · rintro hhas rfl
    exact absurd (t.sameKey_refl other) (Bool.eq_false_iff.mp hhas)
  · exact fun hne => Bool.eq_false_iff.mpr fun hhas => hne (h.eq_of_sameKey hother hrow hhas)

end Table

/-- A deletion that is carried out drops the key from its table. -/
theorem Memory.perform_delete {m : Memory} {name : String} {t : Table} (ht : m.table name = .ok t)
    (key : Item) : m.perform (.delete name key) = (.ok (), m.withTable name (t.remove key)) := by
  simp only [perform, ht, Except.map, commit]

namespace Database

variable {db : Database} {model name : String} {tables : Fields Table} {t : Table}

/-- A deletion that succeeds has dropped the key from its table. -/
theorem changesTo_write_delete {w w' : World Memory} {u : Table} {key : Item} {answer : Unit}
    (htables : tables.ChangesTo name u w.store.tables)
    (h : (db.write (.delete name key)).run.run Memory.receive w = (.ok answer, w')) :
    tables.ChangesTo name (u.remove key) w'.store.tables := by
  have htable : (w.store.without (Request.delete name key).kind).table name = .ok u := by
    rw [Memory.table_eq, Memory.without, htables name, if_pos rfl]
  have hperform := (of_write_eq h).2
  rw [Memory.perform_delete htable key] at hperform
  rw [← (Prod.mk.inj hperform).2]
  exact htables.insert (u.remove key)

/-- The first of some rows is deleted if its key can be told, and the others if that succeeds. -/
theorem run_deleteRows_cons (db : Database) (model name : String) (keys : KeySchema) (row : Item)
    (rows : List Item) (w : World Memory) :
    (db.deleteRows model name keys (row :: rows)).run.run Memory.receive w =
      match rowKey model keys row with
      | .error fault => (.error fault, w)
      | .ok key =>
        match (db.write (.delete name key)).run.run Memory.receive w with
        | (.error fault, w') => (.error fault, w')
        | (.ok _, w') => (db.deleteRows model name keys rows).run.run Memory.receive w' := by
  rw [deleteRows]
  cases rowKey model keys row with
  | error fault => rfl
  | ok key =>
    refine (Run.run_bind (db.write (.delete name key)) _ w).trans ?_
    dsimp only
    rcases (db.write (.delete name key)).run.run Memory.receive w with ⟨_ | _, _⟩ <;> rfl

/-- Of rows that are deleted one by one, some first ones are dropped and nothing else changes. These are
all if no deletion fails. -/
theorem exists_dropped (db : Database) (model : String) (hkeyed : t.WellKeyed) :
    ∀ {rows : List Item} {keep : Item → Bool} {w : World Memory}, (∀ row ∈ rows, row ∈ t.items) →
    tables.ChangesTo name (t.only keep) w.store.tables →
    let ended := (db.deleteRows model name t.keys rows).run.run Memory.receive w
    ∃ dropped left, rows = dropped ++ left ∧ (ended.1 = .ok () → left = []) ∧
      tables.ChangesTo name (t.only fun row => decide (row ∉ dropped) && keep row)
        ended.2.store.tables := by
  have hnone : ∀ keep : Item → Bool,
      t.only (fun row => decide (row ∉ ([] : List Item)) && keep row) = t.only keep :=
    fun keep => Table.only_congr (by simp)
  intro rows
  induction rows with
  | nil => exact fun {keep w} _ htables => ⟨[], [], rfl, fun _ => rfl, hnone keep ▸ htables⟩
  | cons row rows ih =>
    intro keep w hrows htables
    rw [run_deleteRows_cons]
    cases hkey : rowKey model t.keys row with
    | error fault => exact ⟨[], row :: rows, rfl, nofun, hnone keep ▸ htables⟩
    | ok key =>
      obtain ⟨rfl, -⟩ := Table.of_rowKey_eq_ok hkey
      dsimp only
      cases hwrite : (db.write (.delete name (t.keyOf row))).run.run Memory.receive w with
      | mk answer w' =>
        cases answer with
        | error fault =>
          have hsame := db.harmless_write (.delete name (t.keyOf row)) w fault (by rw [hwrite])
          rw [hwrite] at hsame
          exact ⟨[], row :: rows, rfl, nofun, hnone keep ▸ hsame ▸ htables⟩
        | ok answer =>
          have hremoved := changesTo_write_delete htables hwrite
          rw [hkeyed.remove_only (hrows row List.mem_cons_self)] at hremoved
          obtain ⟨dropped, left, rfl, hall, hdropped⟩ :=
            ih (fun other hother => hrows other (List.mem_cons_of_mem row hother)) hremoved
          have hboth : t.only (fun other => decide (other ∉ row :: dropped) && keep other) =
              t.only fun other => decide (other ∉ dropped) && (decide (other ≠ row) && keep other) :=
            Table.only_congr fun other _ => by simp [Bool.and_assoc, Bool.and_left_comm]
          exact ⟨row :: dropped, left, rfl, hall, hboth ▸ hdropped⟩

/-- A deletion deletes the rows that it finds, and says how many these are. -/
theorem run_delete_of_findMany {w middle : World Memory} {conditions : List Condition} {keys : KeySchema}
    {rows : List Item} (hname : db.resolver.table model = .ok name)
    (hkeys : db.resolver.primaryKey model = .ok keys)
    (hfound : (db.findMany { model, conditions }).run.run Memory.receive w = (.ok rows, middle)) :
    (db.delete model conditions).run.run Memory.receive w =
      match (db.deleteRows model name keys rows).run.run Memory.receive middle with
      | (.ok _, w') => (.ok rows.length, w')
      | (.error fault, w') => (.error fault, w') := by
  refine (Run.run_bind (db.findMany { model, conditions }) _ w).trans ?_
  rw [hfound, hname, hkeys]
  refine (Run.run_bind (db.deleteRows model name keys rows) _ middle).trans ?_
  rcases (db.deleteRows model name keys rows).run.run Memory.receive middle with ⟨_ | _, _⟩ <;> rfl

/-- A query that finds rows has a model. -/
theorem model_ne_of_findMany {q : FindQuery} (hjoins : q.joins = []) {w : World Memory} {rows : List Item}
    (h : ((db.findMany q).run.run Memory.receive w).1 = .ok rows) : q.model ≠ "" := by
  obtain ⟨p, hp, -⟩ := exists_fetched_of_findMany hjoins h
  obtain ⟨parts, hparts, -⟩ := Plan.exists_parts hp
  exact hparts.model

/-- The rows that a query for conditions finds are those that satisfy them, whatever fails on the way. -/
theorem covers_of_findMany {w : World Memory} (hlies : db.LiesOn model w.store.tables t)
    (hpageSize : w.store.pageSize ≠ some 0) {conditions : List Condition}
    {normalized : List NormalizedCondition}
    (hconditions : normalizeAll db.resolver model conditions = .ok normalized)
    (hdefinite : ∀ c ∈ normalized, c.IsDefinite) {rows : List Item}
    (h : ((db.findMany { model, conditions }).run.run Memory.receive w).1 = .ok rows) :
    Covers rows t.items (matchesAll normalized) (Plan.PlainMembers normalized) := by
  let q : FindQuery := { model, conditions }
  have hplain : q.IsPlain := ⟨model_ne_of_findMany rfl h, rfl, rfl, rfl, rfl⟩
  obtain ⟨found, hcovers, hensures⟩ := ensures_findMany False
    (show db.LiesOn q.model w.store.tables t from hlies) hpageSize hplain (by simp [q]) hconditions
    hdefinite
  have hrows := (hensures w ⟨rfl, rfl, False.elim, False.elim⟩).2
  rw [h] at hrows
  obtain rfl : rows = found := hrows
  exact hcovers

/-- In a store of a schema whose rows have different keys, a deletion that succeeds has dropped the rows of
the model that satisfy the conditions and says how many these are. One that fails has dropped some of them,
if any. In both cases the other rows of the table are the same, in the same order, and so are the other
tables. This holds whatever pages the store answers with and whatever fails on the way. -/
theorem delete_matches {s : Schema} (hs : s.TablesApart) {w : World Memory} (hstore : w.store.IsOf s)
    (hkeyed : w.store.WellKeyed) (config : Config) (horizon : Nat) {model : String} {d : ModelDef}
    (hmodel : s.model? model = some d) {conditions : List Condition}
    {normalized : List NormalizedCondition}
    (hconditions : normalizeAll s.resolver model conditions = .ok normalized)
    (hdefinite : ∀ c ∈ normalized, c.IsDefinite) (hmembers : Plan.PlainMembers normalized) :
    let ended := (Database.delete ⟨s.resolver, config, horizon⟩ model conditions).run.run Memory.receive w
    let tables := w.store.tables
    ∃ t, Fields.get? tables d.table = some t ∧
      match ended.1 with
      | .ok n => n = (t.items.filter (matchesAll normalized)).length ∧
          tables.ChangesTo d.table (t.only fun row => !matchesAll normalized row) ended.2.store.tables
      | .error _ => ∃ dropped : List Item,
          (∀ row ∈ dropped, row ∈ t.items ∧ matchesAll normalized row = true) ∧
          tables.ChangesTo d.table (t.only fun row => decide (row ∉ dropped)) ended.2.store.tables := by
  intro ended tables
  let db : Database := ⟨s.resolver, config, horizon⟩
  let q : FindQuery := { model, conditions }
  obtain ⟨t, ht, hlies⟩ := exists_liesOn hs hstore hkeyed (show db.resolver = s.resolver from rfl) hmodel
  refine ⟨t, ht, ?_⟩
  cases hfound : (db.findMany q).run.run Memory.receive w with
  | mk found middle =>
    -- The tables are as they were when the rows have been read.
    have hread : tables.ChangesTo d.table (t.only fun _ => true) middle.store.tables := by
      have hsame := Memory.tables_run_of_reads (db.asks_findMany_reads q) w
      rw [hfound] at hsame
      rw [hsame, Table.only_eq_self fun _ _ => rfl]
      exact .refl ht
    cases found with
    | error fault =>
      have hrun : ended = (.error fault, middle) := by
        refine (Run.run_bind (db.findMany q) _ w).trans ?_
        rw [hfound]
      rw [hrun]
      refine ⟨[], nofun, ?_⟩
      rwa [Table.only_congr (q := fun _ => true) (by simp)]
    | ok rows =>
      have hcovers := covers_of_findMany hlies hstore.pageSize_ne hconditions hdefinite
        (congrArg Prod.fst hfound)
      have hrun : ended = _ :=
        run_delete_of_findMany (s.resolver_table hmodel) hlies.primaryKey hfound
      obtain ⟨dropped, left, hsplit, hall, hdropped⟩ := exists_dropped db model
        hlies.wellKeyed (fun row hrow => ((hcovers.mem row).mp hrow).1) hread
      rw [hrun]
      cases hdeleted : (db.deleteRows model d.table t.keys rows).run.run Memory.receive middle with
      | mk answer w' =>
        rw [hdeleted] at hall hdropped
        cases answer with
        | error fault =>
          refine ⟨dropped, fun row hrow => (hcovers.mem row).mp ?_, ?_⟩
          · exact hsplit ▸ List.mem_append_left left hrow
          · simpa using hdropped
        | ok answer =>
          obtain rfl : rows = dropped := by rw [hsplit, hall rfl, List.append_nil]
          refine ⟨(hcovers.perm hmembers).length_eq, ?_⟩
          rwa [Table.only_congr fun row hrow => ?_] at hdropped
          rw [Bool.and_true, Bool.eq_iff_iff]
          simp [hcovers.mem, hrow]

/-- Two of three users are of the team x. -/
theorem delete_matches_users :
    let user : ModelDef := { name := "user", table := "users", primaryKey := { partition := "id" } }
    let row : Int → String → Item := fun id team => [("id", .num (.int id)), ("team", .str team)]
    let store := (Memory.ofSchema (.ofModels [user]) (some 1)).seed "users"
      [.map (row 1 "x"), .map (row 2 "y"), .map (row 3 "x")]
    let db : Database := ⟨(Schema.ofModels [user]).resolver, {}, 3⟩
    let ended := (db.delete "user" [⟨"team", none, .str "x", none⟩]).run.run Memory.receive { store }
    ended.1 = .ok 2 ∧ ∃ t, Fields.get? store.tables "users" = some t ∧
      store.tables.ChangesTo "users" (t.only fun item => !matchesAll
        [⟨"team", .eq, .str "x", .and, false⟩] item) ended.2.store.tables := by
  intro user row store db
  have hstore : store.IsOf (.ofModels [user]) := (Memory.isOf_ofSchema _ _).seed _ _
  have hkeyed : store.WellKeyed := Memory.wellKeyed_of_forall (by decide +kernel)
  have hended : ((db.delete "user" [⟨"team", none, .str "x", none⟩]).run.run Memory.receive
      { store }).1 = .ok 2 := by decide +kernel
  have hconditions : normalizeAll (Schema.ofModels [user]).resolver "user"
      [⟨"team", none, .str "x", none⟩] = .ok [⟨"team", .eq, .str "x", .and, false⟩] := by
    decide +kernel
  obtain ⟨t, ht, hmatch⟩ := delete_matches (s := .ofModels [user])
    (by unfold Schema.TablesApart; decide +kernel) (w := { store }) hstore hkeyed {} 3 (d := user)
    (by decide +kernel) hconditions (by simp [NormalizedCondition.IsDefinite, Value.isNull])
    (by simp [Plan.PlainMembers])
  generalize (db.delete "user" [⟨"team", none, .str "x", none⟩]).run.run Memory.receive { store } = ended
    at hended hmatch ⊢
  rw [hended] at hmatch
  exact ⟨hended, t, ht, hmatch.2⟩

end Database

end KeyedQuery
