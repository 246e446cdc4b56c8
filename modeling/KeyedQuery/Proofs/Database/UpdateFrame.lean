import KeyedQuery.Proofs.Database.Repetition

/-!
# What an update leaves alone

A request that fails in the end leaves the tables as they were, whatever has been scripted and however
often it is repeated (`Memory.tables_of_request_eq_error`), and so does a read
(`Memory.tables_run_of_reads`). An update reads and then sends one write, so it spoils nothing if it
fails. If it succeeds, it puts the row that it returns where the row was that it read, and of that row
changes only attributes which the patch names (`Database.update_frame`).
-/

namespace KeyedQuery

/-! ## Runs and tables -/

namespace Memory

variable {α β : Type} {m : Memory} {r : Request}

theorem tables_perform_of_reads (hr : r.Reads) : (m.perform r).2.tables = m.tables := by
  cases r with
  | page q => rfl
  | batchGet table keys => exact m.tables_batchGet table keys
  | transact _ _ | put _ _ | update _ _ _ _ _ | delete _ _ => exact hr.elim

theorem tables_receive_of_reads (hr : r.Reads) : (receive r m).2.tables = m.tables := by
  rcases m.receive_cases r with ⟨-, hreceive⟩ | ⟨_, _, _, -, hreceive⟩ <;> rw [hreceive]
  exact tables_perform_of_reads hr

theorem tables_receive_of_error {fault : StoreFault} (h : (receive r m).1 = .error fault) :
    (receive r m).2.tables = m.tables := by
  rcases m.receive_cases r with ⟨-, hreceive⟩ | ⟨_, _, _, -, hreceive⟩ <;> rw [hreceive] at h ⊢
  rw [perform_of_error h]

/-- Reads leave the tables as they are. -/
theorem tables_run_of_reads {p : Run α} (hp : Run.Asks Request.Reads p) (w : World Memory) :
    (p.run.run receive w).2.store.tables = w.store.tables :=
  ((Dialogue.KeepsTo.of_asks hp fun _ => trivial : p.run.KeepsTo Request.Reads fun _ => True).run
    (J := fun (m : Memory) _ => m.tables = w.store.tables)
    (fun _ _ _ hr hm => (tables_receive_of_reads hr).trans hm) rfl).1

theorem exists_table_of_perform_update {name expression : String} {key : Item} {a : Attributes}
    {returnUpdated : Bool} {updated : Option Item} {m' : Memory}
    (h : m.perform (.update name key expression a returnUpdated) = (.ok updated, m')) :
    ∃ t, Fields.get? m.tables name = some t := by
  cases ht : Fields.get? m.tables name with
  | some t => exact ⟨t, rfl⟩
  | none =>
    simp only [perform, table_eq, ht] at h
    cases h

/-- The run leaves the tables as they were if it fails. -/
def Harmless (p : Run α) : Prop :=
  ∀ (w : World Memory) (fault : Fault), (p.run.run receive w).1 = .error fault →
    (p.run.run receive w).2.store.tables = w.store.tables

/-- A request that fails in the end leaves the tables as they were. -/
theorem harmless_request (retry : RetryConfig) (r : Request) : Harmless (retry.request r) := by
  have hsend : ∀ left repetitions, Harmless (retry.sendAfter r repetitions left) := by
    intro left
    induction left with
    | zero =>
      intro repetitions w fault h
      obtain ⟨world, next, hworld, -, hrun⟩ := retry.run_sendAfter receive r repetitions 0 w
      rw [hrun] at h ⊢
      cases hanswer : (receive r w.store).1 with
      | ok answer =>
        rw [hanswer] at h
        cases h
      | error fault => exact hworld ▸ tables_receive_of_error hanswer
    | succ left ih =>
      intro repetitions w fault h
      obtain ⟨world, next, hworld, hnext, hrun⟩ :=
        retry.run_sendAfter receive r repetitions (left + 1) w
      rw [hrun] at h ⊢
      cases hanswer : (receive r w.store).1 with
      | ok answer =>
        rw [hanswer] at h
        cases h
      | error fault =>
        rw [hanswer] at h
        dsimp only at h ⊢
        split at h
        · rename_i htransient
          rw [if_pos htransient]
          exact (ih _ next _ h).trans (hnext ▸ tables_receive_of_error hanswer)
        · rename_i hlasting
          rw [if_neg hlasting]
          exact hworld ▸ tables_receive_of_error hanswer
  exact hsend _ 0

namespace Harmless

theorem of_reads {p : Run α} (hp : Run.Asks Request.Reads p) : Harmless p :=
  fun w _ _ => tables_run_of_reads hp w

/-- Reads before a run that spoils nothing spoil nothing. -/
theorem reads_bind {p : Run α} {f : α → Run β} (hp : Run.Asks Request.Reads p)
    (hf : ∀ a, Harmless (f a)) : Harmless (p >>= f) := by
  intro w fault h
  rw [Run.run_bind] at h ⊢
  have hread := tables_run_of_reads hp w
  cases ha : (p.run.run receive w).1 with
  | error fault => exact hread
  | ok a =>
    rw [ha] at h
    exact (hf a _ _ h).trans hread

theorem ofExcept_bind {e : Except Fault α} {f : α → Run β} (hf : ∀ a, Harmless (f a)) :
    Harmless (Run.ofExcept e >>= f) :=
  reads_bind (.ofExcept e) hf

/-- What cannot fail behind a run spoils nothing. -/
theorem bind_of_ok {p : Run α} {f : α → Run β} (hp : Harmless p)
    (hf : ∀ a (w : World Memory), ∃ b, ((f a).run.run receive w).1 = .ok b) : Harmless (p >>= f) := by
  intro w fault h
  rw [Run.run_bind] at h ⊢
  cases ha : (p.run.run receive w).1 with
  | error fault => exact hp w fault ha
  | ok a =>
    rw [ha] at h
    obtain ⟨b, hb⟩ := hf a (p.run.run receive w).2
    cases hb.symm.trans h

end Harmless

end Memory

open Memory

namespace Database

variable {db : Database} {model : String}

theorem harmless_write (db : Database) (r : Request) : Harmless (db.write r) :=
  (harmless_request db.config.retry r).bind_of_ok fun answer _ => ⟨answer, rfl⟩

theorem harmless_update (db : Database) (model : String) (conditions : List Condition)
    (patch : Item) : Harmless (db.update model conditions patch) := by
  refine .reads_bind (asks_findOne_reads _) fun found => ?_
  cases found with
  | none => exact .of_reads (.pure _)
  | some current =>
    exact .ofExcept_bind fun table => .ofExcept_bind fun keys => .ofExcept_bind fun key =>
      .ofExcept_bind fun change => (db.harmless_write _).bind_of_ok fun updated _ => ⟨_, rfl⟩

/-! ## The row that is changed -/

end Database

/-- A row that keeps the key of a stored one goes where that one is. -/
theorem Table.Unique.upsert_of_keyOf_eq {t : Table} (h : t.Unique) {row next : Item}
    (hrow : row ∈ t.items) (hcarries : t.Carries row) (hkey : t.keyOf next = t.keyOf row) :
    ∃ i : Nat, t.items[i]? = some row ∧ t.upsert next = { t with items := t.items.set i next } := by
  obtain ⟨hself, i, hi, rfl, hbefore⟩ := List.find?_eq_some_iff_getElem.mp (h.find?_keyOf hrow hcarries)
  have hposition : t.position (t.keyOf next) = some i := by
    rw [hkey]
    exact List.findIdx?_eq_some_iff_getElem.mpr ⟨hi, hself, fun j hj => by simpa using hbefore j hj⟩
  exact ⟨i, List.getElem?_eq_getElem hi, by rw [Table.upsert, hposition]⟩

theorem Resolver.of_mem_patchedNames {r : Resolver} {model : String} {patch : Item}
    {keys : KeySchema} {k : String} (h : k ∈ keys.patchedNames (r.physicalItem model patch)) :
    k ∉ keys.attributes ∧ k ∈ (Fields.names patch).map (r.fieldName model) := by
  obtain ⟨field, hfield, rfl⟩ := List.mem_map.mp h
  obtain ⟨hfield, hkey⟩ := List.mem_filter.mp hfield
  refine ⟨of_decide_eq_true hkey, ?_⟩
  have hname := (Fields.mem_names_ofList _ _).mp (Fields.mem_names_of_mem hfield)
  simpa [Fields.names] using hname

namespace Database

theorem tables_of_findOne_eq {db : Database} {q : FindQuery} {found : Option Item}
    {w w' : World Memory} (h : (db.findOne q).run.run receive w = (.ok found, w')) :
    w'.store.tables = w.store.tables := by
  have hread := tables_run_of_reads (db.asks_findOne_reads q) w
  rwa [h] at hread

/-- A row that a query for one finds is stored. -/
theorem mem_items_of_findOne {db : Database} {w : World Memory} {model table : String}
    {conditions : List Condition} {t : Table} {row : Item}
    (htable : db.resolver.table model = .ok table)
    (ht : Fields.get? w.store.tables table = some t)
    (h : ((db.findOne { model, conditions }).run.run receive w).1 = .ok (some row)) :
    row ∈ t.items := by
  obtain ⟨rows, hrows, hhead⟩ := Run.exists_of_run_bind_eq_ok h
  exact mem_items_of_findMany (q := { model, conditions, limit := some 1 }) rfl rfl htable ht hrows
    row (List.mem_of_mem_head? (Except.ok.inj hhead))

/-- Carrying the update of a stored row out that a patch comes to puts the row that it answers with where
the row was, and changes only attributes of the row that the patch puts over it. -/
theorem of_perform_update {db : Database} {model table : String} {m m' : Memory} {t : Table}
    {current patch : Item} {change : Patch} {updated : Option Item}
    (ht : Fields.get? m.tables table = some t) (hunique : t.Unique) (hrow : current ∈ t.items)
    (hcarries : t.Carries current)
    (hchange : Patch.between current (db.patchedRow model t.keys current patch) = .ok change)
    (hperform : m.perform (.update table (t.keyOf current) change.expression change.attributes true) =
      (.ok updated, m')) :
    ∃ (next : Item) (i : Nat), updated = some next ∧ t.items[i]? = some current ∧
      m'.tables = Fields.insert m.tables table { t with items := t.items.set i next } ∧
      ∀ k ∉ t.keys.patchedNames (db.resolver.physicalItem model patch),
        Fields.get? next k = Fields.get? current k := by
  have htable : m.table table = .ok t := by rw [Memory.table_eq, ht]
  rw [Memory.perform_update htable (hunique.find?_keyOf hrow hcarries)] at hperform
  cases hupdate : Item.update change.attributes change.expression current with
  | error fault =>
    rw [hupdate] at hperform
    cases hperform
  | ok next =>
    rw [hupdate] at hperform
    obtain ⟨hupdated, rfl⟩ := Prod.mk.inj hperform
    have hothers : ∀ k ∉ t.keys.patchedNames (db.resolver.physicalItem model patch),
        Fields.get? next k = Fields.get? current k :=
      (Patch.confined_update_patched (Fields.ordered_ofList _).nodup hchange hupdate).others hupdate
    have hkey : t.keyOf next = t.keyOf current := t.keyOf_eq_of_get?_eq fun k hk =>
      hothers k fun hin => (Resolver.of_mem_patchedNames hin).1 hk
    obtain ⟨i, hi, hupsert⟩ := hunique.upsert_of_keyOf_eq hrow hcarries hkey
    refine ⟨next, i, (Except.ok.inj hupdated).symm, hi, ?_, hothers⟩
    rw [Memory.withTable, hupsert]

/-- An update that returns a row has put it where the row was that a query for the conditions finds, and
changed nothing else in any table. The row has the key that it had, and is as it was in every attribute
that the patch does not name. An update that returns no row or fails has changed nothing in any table. -/
theorem update_frame {db : Database} {model : String} {w : World Memory} (hunique : w.store.Unique)
    (hkeys : ∀ table keys t, db.resolver.table model = .ok table →
      db.resolver.primaryKey model = .ok keys → Fields.get? w.store.tables table = some t →
      t.keys = keys) (conditions : List Condition) (patch : Item) :
    let ended := (db.update model conditions patch).run.run receive w
    (∀ row, ended.1 = .ok (some row) → ∃ current table t, ∃ i : Nat,
      ((db.findOne { model, conditions }).run.run receive w).1 = .ok (some current) ∧
      db.resolver.table model = .ok table ∧ Fields.get? w.store.tables table = some t ∧
      t.items[i]? = some current ∧
      ended.2.store.tables =
        Fields.insert w.store.tables table { t with items := t.items.set i row } ∧
      (∀ k ∈ t.keys.attributes, Fields.get? row k = Fields.get? current k) ∧
      ∀ k ∉ (Fields.names patch).map (db.resolver.fieldName model),
        Fields.get? row k = Fields.get? current k) ∧
    ((∀ row, ended.1 ≠ .ok (some row)) → ended.2.store.tables = w.store.tables) := by
  intro ended
  refine ⟨fun row hended => ?_, fun hnone => ?_⟩
  · rcases update_cases (Prod.ext hended rfl) with ⟨hnone, -⟩ | ⟨current, table, keys, key, change,
      middle, updated, hfound, htable, hprimary, hkey, hchange, hwrite, hrow⟩
    · cases hnone
    have hread := tables_of_findOne_eq hfound
    have hperform := (of_write_eq hwrite).2
    obtain ⟨t, hfind⟩ := exists_table_of_perform_update hperform
    have ht : Fields.get? w.store.tables table = some t := hread ▸ hfind
    obtain rfl := hkeys table keys t htable hprimary ht
    obtain ⟨rfl, hcarries⟩ := Table.of_rowKey_eq_ok hkey
    have hcurrent := congrArg Prod.fst hfound
    have hmem := mem_items_of_findOne htable ht hcurrent
    obtain ⟨next, i, rfl, hi, htables, hothers⟩ :=
      of_perform_update hfind (hunique table t ht) hmem hcarries hchange hperform
    obtain rfl : row = next := Option.some.inj hrow
    refine ⟨current, table, t, i, hcurrent, htable, ht, hi, ?_, fun k hk => hothers k fun hin => ?_,
      fun k hk => hothers k fun hin => hk (Resolver.of_mem_patchedNames hin).2⟩
    · rw [← hread]
      exact htables
    · exact (Resolver.of_mem_patchedNames hin).1 hk
  · cases hended : ended.1 with
    | error fault => exact harmless_update db model conditions patch w fault hended
    | ok found =>
      cases found with
      | none =>
        rcases update_cases (Prod.ext hended rfl) with
          ⟨-, hfound⟩ | ⟨_, _, _, _, _, _, _, -, -, -, -, -, -, hsome⟩
        · exact tables_of_findOne_eq hfound
        · cases hsome
      | some row => exact absurd hended (hnone row)

/-- The second of two users loses a tag. -/
theorem update_frame_users :
    let user : ModelDef := { name := "user", table := "users", primaryKey := { partition := "id" } }
    let ada : Item := [("id", .num (.int 1)), ("name", .str "ada")]
    let bob : Item := [("id", .num (.int 2)), ("name", .str "bob"), ("tags", .list [.str "x", .str "y"])]
    let row : Item := [("id", .num (.int 2)), ("name", .str "bob"), ("tags", .list [.str "x"])]
    let store := (Memory.ofSchema (.ofModels [user]) none).seed "users" [.map ada, .map bob]
    let db : Database := { resolver := (Schema.ofModels [user]).resolver, horizon := 1 }
    let ended := (db.update "user" [⟨"name", none, .str "bob", none⟩]
      [("tags", .list [.str "x"])]).run.run receive { store }
    ended.1 = .ok (some row) ∧ ∃ t, ∃ i : Nat, Fields.get? store.tables "users" = some t ∧
      t.items[i]? = some bob ∧
      ended.2.store.tables = Fields.insert store.tables "users" { t with items := t.items.set i row } := by
  intro user ada bob row store db
  dsimp only
  have hunique : store.Unique := (Memory.unique_ofSchema _ _).seed _ _
  have hkeys : ∀ table keys t, db.resolver.table "user" = .ok table →
      db.resolver.primaryKey "user" = .ok keys → Fields.get? store.tables table = some t →
      t.keys = keys := by
    intro table keys t htable hkeys ht
    obtain rfl := Except.ok.inj
      ((show db.resolver.table "user" = .ok "users" by decide +kernel).symm.trans htable)
    obtain rfl := Except.ok.inj
      ((show db.resolver.primaryKey "user" = .ok user.primaryKey by decide +kernel).symm.trans hkeys)
    have hall : ∀ field ∈ store.tables, field.2.keys = user.primaryKey := by decide +kernel
    exact hall _ (Fields.mem_of_get?_eq_some ht)
  have hended : ((db.update "user" [⟨"name", none, .str "bob", none⟩]
      [("tags", .list [.str "x"])]).run.run receive { store }).1 = .ok (some row) := by decide +kernel
  have hbob : ((db.findOne
      { model := "user", conditions := [⟨"name", none, .str "bob", none⟩] }).run.run receive
      { store }).1 = .ok (some bob) := by decide +kernel
  obtain ⟨current, table, t, i, hfound, htable, ht, hi, htables, -⟩ :=
    (update_frame (w := { store }) hunique hkeys [⟨"name", none, .str "bob", none⟩]
      [("tags", .list [.str "x"])]).1 row hended
  obtain rfl := Option.some.inj (Except.ok.inj (hbob.symm.trans hfound))
  obtain rfl := Except.ok.inj
    ((show db.resolver.table "user" = .ok "users" by decide +kernel).symm.trans htable)
  exact ⟨hended, t, i, ht, hi, htables⟩

end Database

end KeyedQuery
