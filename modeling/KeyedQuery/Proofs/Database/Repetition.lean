import KeyedQuery.Proofs.Database.Updates
import KeyedQuery.Proofs.Database.Windows
import KeyedQuery.Proofs.Patch.Repetition
import KeyedQuery.Proofs.Plan.Sources
import KeyedQuery.Proofs.Store.Unique
import KeyedQuery.Proofs.Transaction.Invariants

/-!
# Writes carried out twice

A request is repeated if its answer gets lost, even if it has been carried out. Storing a row and dropping
a key leave the tables that they leave the first time. An update does so exactly if its additions, carried
out once more on the row that it has left, change nothing or are refused (`Database.repeatable_iff`), for
everything else in it has been done by then (`Patch.update_again`). If a request can be repeated, lost
answers do not show in the tables (`RetryConfig.store_request_losing`).
-/

namespace KeyedQuery

/-! ## Tables -/

namespace Table

variable {t : Table} {item row key : Item}

/-- A row stands where the first row with its key stood, or at the end. -/
theorem position_upsert (t : Table) (item : Item) : (t.upsert item).position (t.keyOf item) =
    some ((t.position (t.keyOf item)).getD t.items.length) := by
  have hself : item.hasKey (t.keyOf item) = true := t.sameKey_refl item
  unfold upsert
  cases hposition : t.position (t.keyOf item) with
  | some i =>
    obtain ⟨hlt, -, hbefore⟩ := List.findIdx?_eq_some_iff_getElem.mp hposition
    refine List.findIdx?_eq_some_iff_getElem.mpr ⟨by simpa using hlt, by simpa using hself,
      fun j (hj : j < i) => ?_⟩
    simpa [List.getElem_set_ne (Nat.ne_of_gt hj)] using hbefore j hj
  | none =>
    have hnone := List.findIdx?_eq_none_iff.mp hposition
    refine List.findIdx?_eq_some_iff_getElem.mpr ⟨by simp, by simpa using hself,
      fun j (hj : j < t.items.length) => ?_⟩
    simpa [List.getElem_append_left hj] using hnone _ (List.getElem_mem hj)

/-- Of two rows of one key that are stored the second one is left. -/
theorem upsert_upsert (t : Table) {item again : Item} (h : t.keyOf again = t.keyOf item) :
    (t.upsert item).upsert again = t.upsert again := by
  have hposition : (t.upsert item).position ((t.upsert item).keyOf again) =
      some ((t.position (t.keyOf item)).getD t.items.length) := by
    rw [keyOf_congr (t.upsert_keys item), h, position_upsert]
  rw [upsert, hposition]
  cases hbefore : t.position (t.keyOf item) <;> simp [upsert, h, hbefore]

/-- A row that is stored is found by its key. -/
theorem find?_upsert_self (t : Table) (item : Item) :
    (t.upsert item).find? (t.keyOf item) = some item := by
  obtain ⟨hlt, -, hbefore⟩ := List.findIdx?_eq_some_iff_getElem.mp (t.position_upsert item)
  have hitem : (t.upsert item).items[(t.position (t.keyOf item)).getD t.items.length]? =
      some item := by
    cases hposition : t.position (t.keyOf item) with
    | some i =>
      obtain ⟨hi, -⟩ := List.findIdx?_eq_some_iff_getElem.mp hposition
      simp [upsert, hposition, hi]
    | none => simp [upsert, hposition]
  exact List.find?_eq_some_iff_getElem.mpr ⟨t.sameKey_refl item, _, hlt,
    (List.getElem?_eq_some_iff.mp hitem).2, fun j hj => by simpa using hbefore j hj⟩

/-- A key that is dropped twice is dropped once. -/
theorem Unique.remove_remove (h : t.Unique) (hkey : t.IsKey key) :
    (t.remove key).remove key = t.remove key := by
  refine remove_of_find?_eq_none (List.find?_eq_none.mpr fun row hrow => ?_)
  rw [h.items_remove hkey] at hrow
  simpa using (List.mem_filter.mp hrow).2

/-- A row that carries its key is the one that is found by it. -/
theorem Unique.find?_keyOf (h : t.Unique) (hrow : row ∈ t.items) (hcarries : t.Carries row) :
    t.find? (t.keyOf row) = some row := by
  obtain ⟨before, after, hitems⟩ := List.append_of_mem hrow
  have hself : row.hasKey (t.keyOf row) = true := t.sameKey_refl row
  have hone := h _ (isKey_keyOf hcarries)
  rw [hitems, List.countP_append, List.countP_cons, if_pos hself] at hone
  have hnone : before.find? (fun other => other.hasKey (t.keyOf row)) = none :=
    List.find?_eq_none.mpr (List.countP_eq_zero.mp (by omega))
  simp [find?, hitems, hnone, hself]

end Table

/-! ## Requests -/

namespace Memory

variable {m : Memory} {name expression : String} {attributes : Attributes} {t : Table}
  {item row key : Item}

/-- Carried out twice, the request leaves the tables that it leaves the first time. -/
def Repeatable (m : Memory) (r : Request) : Prop :=
  ((m.perform r).2.perform r).2.tables = (m.perform r).2.tables

theorem table_eq (m : Memory) (name : String) : m.table name =
    match Fields.get? m.tables name with
    | some t => .ok t
    | none => .error (.service "ResourceNotFoundException" (missingTable name)) :=
  rfl

/-- A request that is refused changes nothing, so it can be repeated. -/
theorem repeatable_of_eq {r : Request} (h : (m.perform r).2 = m) : m.Repeatable r := by
  rw [Repeatable, h, h]

theorem withTable_withTable (m : Memory) (name : String) (t u : Table) :
    (m.withTable name t).withTable name u = m.withTable name u := by
  simp only [withTable, Fields.insert_insert]

theorem table_withTable (m : Memory) (name : String) (t : Table) :
    (m.withTable name t).table name = .ok t := by
  rw [table_eq, withTable, Fields.get?_insert_self]

theorem repeatable_put (m : Memory) (name : String) (item : Item) : m.Repeatable (.put name item) := by
  cases ht : m.table name with
  | error fault =>
    refine repeatable_of_eq ?_
    simp only [perform, ht, Except.map, commit]
  | ok t =>
    have hfirst : (m.perform (.put name item)).2 = m.withTable name (t.upsert item) := by
      simp only [perform, ht, Except.map, commit]
    rw [Repeatable, hfirst]
    simp only [perform, table_withTable, Except.map, commit, t.upsert_upsert rfl, withTable_withTable]

theorem repeatable_delete (hunique : m.Unique)
    (hkey : ∀ t, Fields.get? m.tables name = some t → t.IsKey key) :
    m.Repeatable (.delete name key) := by
  cases ht : Fields.get? m.tables name with
  | none =>
    refine repeatable_of_eq ?_
    simp only [perform, table_eq, ht, Except.map, commit]
  | some t =>
    have hfirst : (m.perform (.delete name key)).2 = m.withTable name (t.remove key) := by
      simp only [perform, table_eq, ht, Except.map, commit]
    rw [Repeatable, hfirst]
    simp only [perform, table_withTable, Except.map, commit,
      (hunique name t ht).remove_remove (hkey t ht), withTable_withTable]

/-- An update that keeps the key of a row works on that row each time. -/
theorem repeatable_update_iff (ht : Fields.get? m.tables name = some t)
    (hfind : t.find? (t.keyOf row) = some row)
    (hkeeps : ∀ item next, Item.update attributes expression item = .ok next →
      t.keyOf next = t.keyOf item) :
    m.Repeatable (.update name (t.keyOf row) expression attributes true) ↔
      ∀ next again, Item.update attributes expression row = .ok next →
        Item.update attributes expression next = .ok again → again = next := by
  have htable : m.table name = .ok t := by rw [table_eq, ht]
  have hfirst := perform_update htable hfind expression attributes
  cases hnext : Item.update attributes expression row with
  | error fault =>
    rw [hnext] at hfirst
    refine iff_of_true (repeatable_of_eq ?_) fun _ _ h => by cases h
    rw [hfirst]
  | ok next =>
    have hkey := hkeeps row next hnext
    have hsecond := perform_update (table_withTable m name (t.upsert next))
      (hkey ▸ t.find?_upsert_self next) expression attributes
    rw [hnext] at hfirst
    rw [Repeatable, hfirst]
    dsimp only
    rw [hsecond]
    cases hagain : Item.update attributes expression next with
    | error fault =>
      refine iff_of_true rfl fun _ _ h h' => ?_
      obtain rfl := Except.ok.inj h
      cases hagain.symm.trans h'
    | ok again =>
      dsimp only
      rw [withTable_withTable, t.upsert_upsert (hkeeps next again hagain)]
      constructor
      · intro h next' again' hnext' hagain'
        obtain rfl := Except.ok.inj hnext'
        obtain rfl := Except.ok.inj (hagain.symm.trans hagain')
        have htables : t.upsert again = t.upsert next := by
          have hget := congrArg (fun tables => Fields.get? tables name) h
          simpa only [withTable, Fields.get?_insert_self, Option.some.injEq] using hget
        -- The row that is found by the key tells the tables apart.
        have hfound := t.find?_upsert_self again
        rw [htables, hkeeps next again hagain, t.find?_upsert_self] at hfound
        exact (Option.some.inj hfound).symm
      · intro h
        rw [h next again rfl hagain]

end Memory

/-! ## Lost answers -/

namespace Memory

/-- A store that carries requests out, but whose next answers get lost on the way: the sender gets the given
faults instead. -/
def receiveLosing : Client (Memory × List StoreFault)
  | r, (m, []) => ((m.perform r).1, ((m.perform r).2, []))
  | r, (m, fault :: faults) => (.error fault, ((m.perform r).2, faults))

theorem receiveLosing_fst (r : Request) (s : Memory × List StoreFault) :
    (receiveLosing r s).2.1 = (s.1.perform r).2 := by
  obtain ⟨m, faults⟩ := s
  cases faults <;> rfl

/-- A write changes the tables only. -/
theorem perform_write {m : Memory} {r : Request} (hr : r.kind = .write) :
    (m.perform r).2 = { m with tables := (m.perform r).2.tables } := by
  cases r with
  | put name item =>
    simp only [perform]
    cases m.table name <;> rfl
  | delete name key =>
    simp only [perform]
    cases m.table name <;> rfl
  | update name key expression attributes returnUpdated =>
    simp only [perform]
    cases ht : m.table name with
    | error fault => rfl
    | ok t =>
      simp only [bind, Except.bind]
      cases t.update key expression attributes <;> rfl
  | page p => cases hp : p.access <;> simp [Request.kind, hp] at hr
  | batchGet _ _ | transact _ _ => cases hr

end Memory

/-- If a write can be repeated, lost answers do not show in the store. -/
theorem RetryConfig.store_request_losing (retry : RetryConfig) {r : Request} (hr : r.kind = .write)
    {m : Memory} (h : m.Repeatable r) (faults : List StoreFault) :
    ((retry.request r).run.run Memory.receiveLosing { store := (m, faults) }).2.store.1 =
      (m.perform r).2 := by
  have hstays : ((m.perform r).2.perform r).2 = (m.perform r).2 := by
    rw [Memory.perform_write (m := (m.perform r).2) hr, h]
  have hsend : ∀ (left repetitions : Nat) (w : World (Memory × List StoreFault)),
      (w.store.1.perform r).2 = (m.perform r).2 →
      ((retry.sendAfter r repetitions left).run.run Memory.receiveLosing w).2.store.1 =
        (m.perform r).2 := by
    intro left
    induction left with
    | zero =>
      intro repetitions w hw
      obtain ⟨world, _, hworld, -, hrun⟩ :=
        retry.run_sendAfter Memory.receiveLosing r repetitions 0 w
      rw [hrun]
      cases (Memory.receiveLosing r w.store).1 with
      | ok answer => exact hworld ▸ (Memory.receiveLosing_fst r w.store).trans hw
      | error fault => exact hworld ▸ (Memory.receiveLosing_fst r w.store).trans hw
    | succ left ih =>
      intro repetitions w hw
      obtain ⟨world, next, hworld, hnext, hrun⟩ :=
        retry.run_sendAfter Memory.receiveLosing r repetitions (left + 1) w
      have hafter := (Memory.receiveLosing_fst r w.store).trans hw
      rw [hrun]
      cases (Memory.receiveLosing r w.store).1 with
      | ok answer => exact hworld ▸ hafter
      | error fault =>
        dsimp only
        split
        · exact ih _ _ (by rw [hnext, hafter, hstays])
        · exact hworld ▸ hafter
  exact hsend _ 0 _ rfl

/-! ## Requests of a database -/

/-- The additions of an update, carried out once more on the row that it leaves, change nothing or are
refused. -/
def Item.Absorbs (row : Item) (attributes : Attributes) (expression : String) : Prop :=
  ∀ actions next again, UpdateAction.parse attributes expression = .ok actions →
    Item.update attributes expression row = .ok next →
    UpdateAction.applyAll next (actions.filter UpdateAction.isAddition) = .ok again → again = next

/-- An update without additions has nothing to carry out once more. -/
theorem Item.absorbs_of_no_additions {row : Item} {attributes : Attributes} {expression : String}
    (h : ∀ actions, UpdateAction.parse attributes expression = .ok actions →
      ∀ action ∈ actions, action.isAddition = false) : row.Absorbs attributes expression := by
  intro actions next again hparse _ hagain
  rw [List.filter_eq_nil_iff.mpr fun action haction => by simp [h actions hparse action haction]]
    at hagain
  exact (Except.ok.inj hagain).symm

/-- If the request is an update of a row, the row absorbs its additions. -/
def Request.Absorbed (m : Memory) : Request → Prop
  | .update name key expression attributes _ => ∀ t row, Fields.get? m.tables name = some t →
      t.find? key = some row → row.Absorbs attributes expression
  | _ => True

/-- The request is among those that are sent to create, to update or to delete rows of a model. -/
inductive Database.Sends (db : Database) (w : World Memory) (r : Request) : Prop where
  | create (model : String) (data : Item)
    (h : r ∈ ((db.create model data).run.run Memory.receive w).2.requests)
  | update (model : String) (conditions : List Condition) (patch : Item) (hpatch : patch.IsOrdered)
    (h : r ∈ ((db.update model conditions patch).run.run Memory.receive w).2.requests)
  | delete (model : String) (conditions : List Condition)
    (h : r ∈ ((db.delete model conditions).run.run Memory.receive w).2.requests)

namespace Database

variable {σ : Type} {client : Client σ} {db : Database} {w : World σ} {r : Request} {model : String}
  {conditions : List Condition}

theorem asks_write (db : Database) (r : Request) : Run.Asks (· = r) (db.write r) :=
  (Run.Asks.request (φ := fun sent => sent = r) _ rfl).bind fun _ =>
    (Run.Asks.count _ _).bind fun _ => .pure _

theorem asks_create (db : Database) (model : String) (data : Item) :
    Run.Asks (fun r => ∃ table item, r = .put table item) (db.create model data) :=
  Run.Asks.ofExcept_bind fun place _ =>
    ((db.asks_write _).mono fun _ hr => ⟨place.1, place.2.2, hr⟩).bind fun _ => .pure _

/-- The requests of an update are reads, and the update of the row that was read by the difference to the
patched row. -/
theorem mem_requests_update {patch : Item}
    (h : r ∈ ((db.update model conditions patch).run.run client w).2.requests) :
    r ∈ w.requests ∨ r.Reads ∨ ∃ current table keys key change,
      ((db.findOne { model, conditions }).run.run client w).1 = .ok (some current) ∧
      db.resolver.table model = .ok table ∧ db.resolver.primaryKey model = .ok keys ∧
      rowKey model keys current = .ok key ∧
      Patch.between current (db.patchedRow model keys current patch) = .ok change ∧
      r = .update table key change.expression change.attributes true := by
  rcases Run.Asks.mem_requests_bind (asks_findOne_reads { model, conditions })
    (χ := fun found r => ∃ current, found = some current ∧ ∃ table keys key change,
      db.resolver.table model = .ok table ∧ db.resolver.primaryKey model = .ok keys ∧
      rowKey model keys current = .ok key ∧
      Patch.between current (db.patchedRow model keys current patch) = .ok change ∧
      r = .update table key change.expression change.attributes true) (fun found => by
        cases found with
        | none => exact .pure _
        | some current =>
          refine .ofExcept_bind fun table htable => .ofExcept_bind fun keys hkeys =>
            .ofExcept_bind fun key hkey => .ofExcept_bind fun change hchange => ?_
          refine ((db.asks_write _).mono fun r hr => ?_).bind fun _ => .pure _
          exact ⟨current, rfl, table, keys, key, change, htable, hkeys, hkey,
            of_mapError_eq_ok hchange, hr⟩) h with
    hold | hread | ⟨found, hfound, current, rfl, table, keys, key, change, hbuilt⟩
  · exact .inl hold
  · exact .inr (.inl hread)
  · exact .inr (.inr ⟨current, table, keys, key, change, hfound, hbuilt⟩)

/-- The requests of a deletion are reads, and deletions of the rows that were read. -/
theorem mem_requests_delete (h : r ∈ ((db.delete model conditions).run.run client w).2.requests) :
    r ∈ w.requests ∨ r.Reads ∨ ∃ rows row table keys key,
      ((db.findMany { model, conditions }).run.run client w).1 = .ok rows ∧ row ∈ rows ∧
      db.resolver.table model = .ok table ∧ db.resolver.primaryKey model = .ok keys ∧
      rowKey model keys row = .ok key ∧ r = .delete table key := by
  have hdeletes : ∀ (table : String) (keys : KeySchema) (rows : List Item),
      Run.Asks (fun r => ∃ row ∈ rows, ∃ key, rowKey model keys row = .ok key ∧
        r = .delete table key) (db.deleteRows model table keys rows) := by
    intro table keys rows
    induction rows with
    | nil => exact .pure _
    | cons row rest ih =>
      refine .ofExcept_bind fun key hkey => ((db.asks_write _).mono fun r hr =>
        ⟨row, List.mem_cons_self, key, hkey, hr⟩).bind fun _ => ih.mono ?_
      rintro r ⟨other, hother, hbuilt⟩
      exact ⟨other, List.mem_cons_of_mem row hother, hbuilt⟩
  rcases Run.Asks.mem_requests_bind (asks_findMany_reads { model, conditions })
    (χ := fun rows r => ∃ row ∈ rows, ∃ table keys key, db.resolver.table model = .ok table ∧
      db.resolver.primaryKey model = .ok keys ∧ rowKey model keys row = .ok key ∧
      r = .delete table key) (fun rows => by
        refine .ofExcept_bind fun table htable => .ofExcept_bind fun keys hkeys => ?_
        refine ((hdeletes table keys rows).mono ?_).bind fun _ => .pure _
        rintro r ⟨row, hrow, key, hkey, hr⟩
        exact ⟨row, hrow, table, keys, key, htable, hkeys, hkey, hr⟩) h with
    hold | hread | ⟨rows, hfound, row, hrow, table, keys, key, hbuilt⟩
  · exact .inl hold
  · exact .inr (.inl hread)
  · exact .inr (.inr ⟨rows, row, table, keys, key, hfound, hrow, hbuilt⟩)

end Database

/-! ## Repetition -/

/-- The names are ordered in all rows. -/
def Memory.IsOrdered (m : Memory) : Prop :=
  ∀ name t, Fields.get? m.tables name = some t → ∀ row ∈ t.items, row.IsOrdered

/-- A query for whole rows finds rows of the table. -/
theorem Database.mem_items_of_findMany {db : Database} {w : World Memory} {q : FindQuery}
    {table : String} {t : Table} (hjoins : q.joins = []) (hselect : q.select = none)
    (htable : db.resolver.table q.model = .ok table) (ht : Fields.get? w.store.tables table = some t)
    {rows : List Item} (h : ((db.findMany q).run.run Memory.receive w).1 = .ok rows) :
    ∀ row ∈ rows, row ∈ t.items := by
  obtain ⟨p, hp, fetched, hfetched, rfl⟩ := exists_fetched_of_findMany hjoins h
  obtain rfl := Except.ok.inj ((Plan.of_ofQuery hp hjoins).1.symm.trans htable)
  have hholds : Memory.Holds w.store.tables w.store.pageSize False w.store :=
    ⟨rfl, rfl, False.elim, False.elim⟩
  have hensures : Run.Ensures Memory.receive (Memory.Holds w.store.tables w.store.pageSize False)
      (p.fetch db.policy p.directives.fetchLimit) _ _ := p.ensures_fetch_mem ht _
  have hfetch := (hensures w hholds).2
  rw [hfetched] at hfetch
  have hpselect : p.select = none := by rw [Plan.select_of_ofQuery hp, hselect]; rfl
  exact fun row hrow => hfetch row (Plan.mem_of_mem_finish hpselect hrow)

/-- Values that are put over an ordered row leave it ordered. -/
theorem Database.isOrdered_patchedRow (db : Database) (model : String) (keys : KeySchema)
    {row patch : Item} (hrow : row.IsOrdered) (hpatch : patch.IsOrdered) :
    (db.patchedRow model keys row patch).IsOrdered := by
  obtain ⟨hordered, hfields⟩ := Value.isOrdered_map_iff.mp hrow
  refine Value.isOrdered_map_iff.mpr ⟨hordered.merge _, fun k v hv => ?_⟩
  rcases Fields.get?_merge_eq_some hv with hmem | hget
  · have hphysical := (Fields.ordered_ofList _).get?_of_mem (List.mem_of_mem_filter hmem)
    rcases Fields.get?_merge_eq_some hphysical with hpair | hnone
    · obtain ⟨field, hfield, hpair⟩ := List.mem_map.mp hpair
      cases hpatch with
      | map _ hvalues => exact (Prod.mk.inj hpair).2 ▸ hvalues field hfield
    · cases hnone
  · exact hfields k v hget

theorem Request.not_reads_of_kind_write {r : Request} (h : r.kind = .write) : ¬r.Reads := by
  intro hreads
  cases r with
  | page p => cases hp : p.access <;> simp [kind, hp] at h
  | batchGet _ _ => cases h
  | transact _ _ | put _ _ | update _ _ _ _ _ | delete _ _ => exact hreads

theorem Request.absorbed_update_iff {m : Memory} {name expression : String} {key row : Item}
    {attributes : Attributes} {returnUpdated : Bool} {t : Table}
    (ht : Fields.get? m.tables name = some t) (hfind : t.find? key = some row) :
    (Request.update name key expression attributes returnUpdated).Absorbed m ↔
      row.Absorbs attributes expression := by
  constructor
  · exact fun h => h t row ht hfind
  · intro h u found hu hfound
    obtain rfl := Option.some.inj (ht.symm.trans hu)
    exact Option.some.inj (hfind.symm.trans hfound) ▸ h

/-- The update that a patch of a row comes to can be repeated exactly if the row absorbs its additions. -/
theorem Database.repeatable_patched_iff {db : Database} {m : Memory} {name model : String} {t : Table}
    {row patch : Item} {change : Patch} (ht : Fields.get? m.tables name = some t)
    (hfind : t.find? (t.keyOf row) = some row) (hrow : row.IsOrdered) (hpatch : patch.IsOrdered)
    (hchange : Patch.between row (db.patchedRow model t.keys row patch) = .ok change) :
    m.Repeatable (.update name (t.keyOf row) change.expression change.attributes true) ↔
      row.Absorbs change.attributes change.expression := by
  have hkeeps : ∀ item next, Item.update change.attributes change.expression item = .ok next →
      t.keyOf next = t.keyOf item := fun item next hnext =>
    t.keyOf_eq_of_get?_eq fun k hk =>
      (Patch.confined_update_patched (Fields.ordered_ofList _).nodup hchange hnext).others hnext k
        fun hin => by
          obtain ⟨field, hfield, rfl⟩ := List.mem_map.mp hin
          exact of_decide_eq_true (List.mem_filter.mp hfield).2 hk
  have hagain : ∀ next, Item.update change.attributes change.expression row = .ok next →
      ∃ actions, UpdateAction.parse change.attributes change.expression = .ok actions ∧
        Item.update change.attributes change.expression next =
          UpdateAction.applyAll next (actions.filter UpdateAction.isAddition) := fun next hnext =>
    Patch.update_again hrow (db.isOrdered_patchedRow model t.keys hrow hpatch) hchange hnext
  rw [Memory.repeatable_update_iff ht hfind hkeeps]
  constructor
  · intro hsame actions next again hparse hnext hadded
    obtain ⟨found, hfound, hupdate⟩ := hagain next hnext
    obtain rfl := Except.ok.inj (hfound.symm.trans hparse)
    exact hsame next again hnext (hupdate.trans hadded)
  · intro habsorbs next again hnext hupdated
    obtain ⟨actions, hparse, hupdate⟩ := hagain next hnext
    exact habsorbs actions next again hparse hnext (hupdate.symm.trans hupdated)

/-- A write that creates, updates or deletes rows can be repeated exactly if it is no update or the row
absorbs the additions of the update. If it can, it does not show in the store how many answers to it have
been lost. -/
theorem Database.repeatable_iff {s : Schema} (hs : s.TablesApart) {w : World Memory}
    (hstore : w.store.IsOf s) (hunique : w.store.Unique) (hordered : w.store.IsOrdered)
    (hrecord : w.requests = []) {db : Database} (hresolver : db.resolver = s.resolver) {r : Request}
    (hsends : db.Sends w r) (hwrite : r.kind = .write) :
    (w.store.Repeatable r ↔ r.Absorbed w.store) ∧
      (r.Absorbed w.store → ∀ faults,
        ((db.request r).run.run Memory.receiveLosing { store := (w.store, faults) }).2.store.1 =
          (w.store.perform r).2) := by
  suffices hiff : w.store.Repeatable r ↔ r.Absorbed w.store from
    ⟨hiff, fun h => db.config.retry.store_request_losing hwrite (hiff.mpr h)⟩
  have hreads : ¬r.Reads := Request.not_reads_of_kind_write hwrite
  have hkeysIn := db.keysIn hs hstore hresolver
  cases hsends with
  | create model data h =>
    obtain ⟨table, item, rfl⟩ :=
      (Dialogue.Asks.mem_requests (db.asks_create model data) h).resolve_left (by simp [hrecord])
    exact iff_of_true (w.store.repeatable_put table item) trivial
  | delete model conditions h =>
    obtain ⟨rows, row, table, keys, key, -, -, htable, hkeys, hkey, rfl⟩ :=
      ((mem_requests_delete h).resolve_left (by simp [hrecord])).resolve_left hreads
    refine iff_of_true (Memory.repeatable_delete hunique fun t ht => ?_) trivial
    obtain ⟨u, hu, rfl⟩ := hkeysIn model table keys htable hkeys
    obtain rfl := Option.some.inj (hu.symm.trans ht)
    obtain ⟨rfl, hcarries⟩ := Table.of_rowKey_eq_ok hkey
    exact Table.isKey_keyOf hcarries
  | update model conditions patch hpatch h =>
    obtain ⟨current, table, keys, key, change, hfound, htable, hkeys, hkey, hchange, rfl⟩ :=
      ((mem_requests_update h).resolve_left (by simp [hrecord])).resolve_left hreads
    obtain ⟨t, ht, rfl⟩ := hkeysIn model table keys htable hkeys
    obtain ⟨rfl, hcarries⟩ := Table.of_rowKey_eq_ok hkey
    have hmem : current ∈ t.items := by
      obtain ⟨rows, hrows, hhead⟩ := Run.exists_of_run_bind_eq_ok hfound
      exact mem_items_of_findMany (q := { model, conditions, limit := some 1 }) rfl rfl htable ht hrows
        current (List.mem_of_mem_head? (Except.ok.inj hhead))
    have hfind := (hunique _ t ht).find?_keyOf hmem hcarries
    rw [Request.absorbed_update_iff ht hfind]
    exact repeatable_patched_iff ht hfind (hordered _ t ht current hmem) hpatch hchange

/-- A user gets another name and loses the second of two tags. -/
theorem Database.repeatable_iff_users :
    let user : ModelDef := { name := "user", table := "users", primaryKey := { partition := "id" } }
    let store := (Memory.ofSchema (.ofModels [user]) none).seed "users"
      [.map [("id", .num (.int 1)), ("name", .str "ada"), ("tags", .list [.str "x", .str "y"])]]
    let db : Database := { resolver := (Schema.ofModels [user]).resolver, horizon := 1 }
    let r : Request := .update "users" [("id", .num (.int 1))] "SET #f0 = :v0 REMOVE #f1[1]"
      { names := [("#f0", "name"), ("#f1", "tags")], values := [(":v0", .str "bob")] } true
    (store.Repeatable r ↔ r.Absorbed store) ∧
      (r.Absorbed store → ∀ faults,
        ((db.request r).run.run Memory.receiveLosing { store := (store, faults) }).2.store.1 =
          (store.perform r).2) := by
  intro user store db r
  have hs : (Schema.ofModels [user]).TablesApart := by
    unfold Schema.TablesApart
    decide +kernel
  have hstore : store.IsOf (.ofModels [user]) := (Memory.isOf_ofSchema _ _).seed _ _
  have hunique : store.Unique := (Memory.unique_ofSchema _ _).seed _ _
  have hordered : store.IsOrdered := by
    intro name t ht row hrow
    have hall : ∀ field ∈ store.tables, ∀ row ∈ field.2.items,
        row = [("id", .num (.int 1)), ("name", .str "ada"), ("tags", .list [.str "x", .str "y"])] := by
      decide +kernel
    obtain rfl := hall (name, t) (Fields.mem_of_get?_eq_some ht) row hrow
    refine .map (by decide) fun field hfield => ?_
    simp only [List.mem_cons, List.not_mem_nil, or_false] at hfield
    rcases hfield with rfl | rfl | rfl
    · exact .num _
    · exact .str _
    · refine .list fun x hx => ?_
      simp only [List.mem_cons, List.not_mem_nil, or_false] at hx
      rcases hx with rfl | rfl <;> exact .str _
  have hpatch : Item.IsOrdered [("name", .str "bob"), ("tags", .list [.str "x"])] := by
    refine .map (by decide) fun field hfield => ?_
    simp only [List.mem_cons, List.not_mem_nil, or_false] at hfield
    rcases hfield with rfl | rfl
    · exact .str _
    · refine .list fun x hx => ?_
      obtain rfl := List.mem_singleton.mp hx
      exact .str _
  have hsends : db.Sends { store } r :=
    .update "user" [⟨"id", none, .num (.int 1), none⟩]
      [("name", .str "bob"), ("tags", .list [.str "x"])] hpatch (by decide +kernel)
  exact repeatable_iff hs (w := { store }) hstore hunique hordered rfl rfl hsends rfl

/-- The update that makes a user a year older adds 1 to her age, each time it is carried out. -/
theorem Database.not_repeatable :
    let user : ModelDef := { name := "user", table := "users", primaryKey := { partition := "id" } }
    let store := (Memory.ofSchema (.ofModels [user]) none).seed "users"
      [.map [("age", .num (.int 36)), ("id", .num (.int 1))]]
    let db : Database := { resolver := (Schema.ofModels [user]).resolver, horizon := 1 }
    let r : Request := .update "users" [("id", .num (.int 1))] "ADD #f0 :v0"
      { names := [("#f0", "age")], values := [(":v0", .num (.int 1))] } true
    db.Sends { store } r ∧ r.kind = .write ∧ ¬store.Repeatable r ∧
      (store.perform r).2.items "users" = [[("age", .num (.int 37)), ("id", .num (.int 1))]] ∧
      ((store.perform r).2.perform r).2.items "users" =
        [[("age", .num (.int 38)), ("id", .num (.int 1))]] := by
  intro user store db r
  have hpatch : Item.IsOrdered [("age", .num (.int 37))] := by
    refine .map (by decide) fun field hfield => ?_
    obtain rfl := List.mem_singleton.mp hfield
    exact .num _
  refine ⟨?_, rfl, by unfold Memory.Repeatable; decide +kernel, by decide +kernel,
    by decide +kernel⟩
  exact .update "user" [⟨"id", none, .num (.int 1), none⟩] [("age", .num (.int 37))] hpatch
    (by decide +kernel)

end KeyedQuery
