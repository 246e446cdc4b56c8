import KeyedQuery.Proofs.Database.KeyReads
import KeyedQuery.Proofs.Database.RowKeys
import KeyedQuery.Proofs.Transaction.Overlay
import KeyedQuery.Proofs.Transaction.Updates

/-!
# Calls of a transaction

A `Transaction.Call` creates, updates or deletes a row. It has an effect on the row at one place
(`Transaction.Call.effect?`). Whatever the transaction has buffered for that place before, a call that
succeeds keeps its records in step and changes what the transaction sees there by that effect, and
nothing elsewhere (`Transaction.Tracks.ensures_call`).
-/

namespace KeyedQuery

/-! ## Keys of rows and of patched rows -/

namespace Table

variable {t : Table} {item key : Item} {model : String}

theorem HasKeyParts.isIn (h : t.HasKeyParts item) : t.keys.IsIn item := by
  intro a ha
  obtain ⟨v, hv, hpart⟩ := h a ha
  rw [hv]
  exact hpart.isNull

theorem HasKeyParts.rowKey (h : t.HasKeyParts item) (model : String) :
    Database.rowKey model t.keys item = .ok (t.keyOf item) := by
  rw [Database.rowKey, keyOf_eq_ok_iff.mpr ⟨rfl, h.isIn⟩]
  rfl

theorem hasKeyParts_of_keyOf (hcarries : t.Carries item)
    (h : ∀ field ∈ t.keyOf item, field.2.IsKeyPart) : t.HasKeyParts item := by
  intro a ha
  obtain ⟨v, hv⟩ := Option.isSome_iff_exists.mp (hcarries a ha)
  refine ⟨v, hv, h (a, v) (Fields.mem_of_get?_eq_some ?_)⟩
  rw [get?_keyOf, if_pos ha, hv]

theorem IsKey.hasKeyParts (hkey : t.IsKey key) (h : ∀ field ∈ key, field.2.IsKeyPart) :
    t.HasKeyParts key :=
  hasKeyParts_of_keyOf hkey.carries (hkey.keyOf_eq.symm ▸ h)

/-- A patch leaves the key attributes of a row alone. -/
theorem get?_patched {a : String} (ha : a ∈ t.keys.attributes) (item patch : Item) :
    Fields.get? (t.keys.patched item patch) a = Fields.get? item a := by
  have hmerge : ∀ (gs : Fields Value), a ∉ Fields.names gs → ∀ fs : Fields Value,
      Fields.get? (Fields.merge fs gs) a = Fields.get? fs a := by
    intro gs
    induction gs with
    | nil => exact fun _ fs => by rw [Fields.merge_nil]
    | cons field rest ih =>
      intro hnot fs
      obtain ⟨name, v⟩ := field
      obtain ⟨hne, hrest⟩ : a ≠ name ∧ a ∉ Fields.names rest :=
        not_or.mp fun hmem => hnot (List.mem_cons.mpr hmem)
      rw [Fields.merge_cons, ih hrest, Fields.get?_insert, if_neg (Ne.symm hne)]
  refine hmerge _ (fun hmem => ?_) item
  obtain ⟨field, hfield, rfl⟩ := List.mem_map.mp hmem
  exact of_decide_eq_true (List.mem_filter.mp hfield).2 ha

theorem keyOf_patched (t : Table) (item patch : Item) :
    t.keyOf (t.keys.patched item patch) = t.keyOf item :=
  t.keyOf_eq_of_get?_eq fun _ ha => get?_patched ha item patch

theorem HasKeyParts.patched (h : t.HasKeyParts item) (patch : Item) :
    t.HasKeyParts (t.keys.patched item patch) := by
  intro a ha
  rw [get?_patched ha]
  exact h a ha

end Table

theorem Place.Holds.patched {tables : Fields Table} {p : Place} {item : Item} {t : Table}
    (h : p.Holds tables item) (ht : Fields.get? tables p.table = some t) (patch : Item) :
    p.Holds tables (t.keys.patched item patch) := by
  obtain ⟨u, hu, hparts, hkey⟩ := h
  obtain rfl := Option.some.inj (hu.symm.trans ht)
  exact ⟨u, hu, hparts.patched patch, (u.keyOf_patched item patch).trans hkey⟩

/-! ## Queries and new rows -/

namespace Database

variable {db : Database} {tables : Fields Table} {pageSize : Option Nat} {calm : Prop} {q : FindQuery}

/-- A query without a model fails before anything is sent. -/
theorem ensures_findOne_unnamed {Q : Option Item → Prop} (h : q.model = "") :
    Run.Ensures Memory.receive (Memory.Holds tables pageSize calm) (db.findOne q) Q
      (fun _ => True) := by
  have hplan : db.plan { q with limit := some 1 } =
      .error (.missingInput "Query has no model") := by
    rw [plan, Plan.ofQuery, if_pos h]
    rfl
  unfold findOne findMany
  rw [hplan]
  refine .bind (Q := fun _ => False) (.bind (Q := fun _ => False) ?_ fun _ h => h.elim)
    fun _ h => h.elim
  exact .ofExcept (fun _ h => by cases h) fun _ _ => trivial

theorem newRow_eq_ok {model table : String} {data key item : Item}
    (h : db.newRow model data = .ok (table, key, item)) :
    db.resolver.table model = .ok table ∧ ∃ keys, db.resolver.primaryKey model = .ok keys ∧
      rowKey model keys item = .ok key ∧ item = db.resolver.physicalItem model data := by
  unfold newRow at h
  obtain ⟨name, hname, h⟩ := exists_of_bind_eq_ok h
  obtain ⟨keys, hkeys, h⟩ := exists_of_bind_eq_ok h
  obtain ⟨k, hk, h⟩ := exists_of_bind_eq_ok h
  obtain ⟨rfl, hpair⟩ := Prod.mk.inj (Except.ok.inj h)
  obtain ⟨rfl, rfl⟩ := Prod.mk.inj hpair
  exact ⟨hname, keys, hkeys, hk, rfl⟩

/-- A new row of a model has its key at its place in the model's table. -/
theorem LiesIn.holds_newRow (h : db.LiesIn tables) {model table : String} {data key item : Item}
    (hrow : db.newRow model data = .ok (table, key, item))
    (hparts : ∀ field ∈ key, field.2.IsKeyPart) :
    Place.Holds tables ⟨table, key⟩ item := by
  obtain ⟨htable, keys, hkeys, hkey, -⟩ := newRow_eq_ok hrow
  obtain ⟨t, ht, hlies⟩ := h model table htable
  obtain rfl : keys = t.keys := Except.ok.inj (hkeys.symm.trans hlies.primaryKey)
  obtain ⟨rfl, hcarries⟩ := Table.of_rowKey_eq_ok hkey
  exact ⟨t, ht, Table.hasKeyParts_of_keyOf hcarries hparts, rfl⟩

end Database

namespace Transaction

theorem target_eq_ok {db : Database} {model : String} {conditions : List Condition} {g : Target}
    (h : target db model conditions = .ok g) :
    db.resolver.table model = .ok g.table ∧ db.resolver.primaryKey model = .ok g.keys ∧
      normalizeAll db.resolver model conditions = .ok g.conditions ∧
      keyOfConditions model g.keys g.conditions = .ok g.key := by
  unfold target at h
  obtain ⟨table, htable, h⟩ := exists_of_bind_eq_ok h
  obtain ⟨keys, hkeys, h⟩ := exists_of_bind_eq_ok h
  obtain ⟨normalized, hnormalized, h⟩ := exists_of_bind_eq_ok h
  obtain ⟨key, hkey, h⟩ := exists_of_bind_eq_ok h
  obtain rfl := Except.ok.inj h
  exact ⟨htable, hkeys, hnormalized, hkey⟩

/-- The place of the row that the conditions fix. -/
def Target.place (g : Target) : Place :=
  ⟨g.table, g.key⟩

/-- The place that conditions on a model fix is in the model's table. -/
theorem Target.isIn {db : Database} {tables : Fields Table} {model : String}
    {conditions : List Condition} (g : Target) (hlies : db.LiesIn tables)
    (hg : target db model conditions = .ok g) (hparts : ∀ field ∈ g.key, field.2.IsKeyPart) :
    ∃ t, Fields.get? tables g.table = some t ∧ db.LiesOn model tables t ∧ g.keys = t.keys ∧
      g.place.IsIn tables := by
  obtain ⟨htable, hprimary, -, hfixed⟩ := target_eq_ok hg
  obtain ⟨t, ht, hlies⟩ := hlies model g.table htable
  have hkeys : g.keys = t.keys := Except.ok.inj (hprimary.symm.trans hlies.primaryKey)
  have hisKey : t.IsKey g.key := isKey_of_keyOfConditions (hkeys ▸ hfixed)
  exact ⟨t, ht, hlies, hkeys, t, ht, hisKey, hisKey.hasKeyParts hparts⟩

/-- What an update makes of the row at its place. -/
def patchOver (db : Database) (model : String) (g : Target) (patch row : Item) : Item :=
  if matchesAll g.conditions row then db.patchedRow model g.keys row patch else row

/-! ## Calls -/

/-- A write by model. -/
inductive Call where
  /-- Create a row. -/
  | create (model : String) (data : Item)
  /-- Put a patch over the row that the conditions fix. -/
  | update (model : String) (conditions : List Condition) (patch : Item)
  /-- Delete the row that the conditions fix. -/
  | delete (model : String) (conditions : List Condition)

namespace Call

/-- The transaction after the call. -/
def run (db : Database) (tx : Transaction) : Call → Run Transaction
  | .create model data => Run.ofExcept ((tx.create db model data).map Prod.snd)
  | .update model conditions patch => do
    let (_, next) ← tx.update db model conditions patch
    pure next
  | .delete model conditions => Run.ofExcept (tx.delete db model conditions)

/-- The place of the row that the call is about, and what becomes of the row there. -/
def effect? (db : Database) : Call → Option (Place × (Option Item → Option Item))
  | .create model data =>
    match db.newRow model data with
    | .ok (table, key, item) => some (⟨table, key⟩, fun _ => some item)
    | .error _ => none
  | .update model conditions patch =>
    match target db model conditions with
    | .ok g => some (g.place, Option.map (patchOver db model g patch))
    | .error _ => none
  | .delete model conditions =>
    match target db model conditions with
    | .ok g => some (g.place, fun _ => none)
    | .error _ => none

/-- The call is about a row whose key values a transaction can tell apart, and if it has to look for
the row it does not test for null. -/
def Regular (db : Database) : Call → Prop
  | .create model data => ∀ table key item, db.newRow model data = .ok (table, key, item) →
    ∀ field ∈ key, field.2.IsKeyPart
  | .update model conditions _ => ∀ g, target db model conditions = .ok g →
    (∀ field ∈ g.key, field.2.IsKeyPart) ∧ ∀ c ∈ g.conditions, c.IsDefinite
  | .delete model conditions => ∀ g, target db model conditions = .ok g →
    ∀ field ∈ g.key, field.2.IsKeyPart

theorem regular_create {db : Database} {model : String} {data : Item} {row : String × Item × Item}
    (hrow : db.newRow model data = .ok row) (hparts : ∀ field ∈ row.2.1, field.2.IsKeyPart) :
    (Call.create model data).Regular db := by
  intro table key item hnew
  obtain rfl := Except.ok.inj (hrow.symm.trans hnew)
  exact hparts

variable {db : Database} {model : String} {p : Place} {f : Option Item → Option Item}

theorem effect?_create {data : Item} (h : (create model data).effect? db = some (p, f)) :
    ∃ table key item, db.newRow model data = .ok (table, key, item) ∧ p = ⟨table, key⟩ ∧
      f = fun _ => some item := by
  rw [effect?] at h
  split at h
  · rename_i table key item hrow
    obtain ⟨rfl, rfl⟩ := Prod.mk.inj (Option.some.inj h)
    exact ⟨table, key, item, hrow, rfl, rfl⟩
  · cases h

theorem effect?_update {conditions : List Condition} {patch : Item}
    (h : (update model conditions patch).effect? db = some (p, f)) :
    ∃ g, target db model conditions = .ok g ∧ p = g.place ∧
      f = Option.map (patchOver db model g patch) := by
  rw [effect?] at h
  split at h
  · rename_i g hg
    obtain ⟨rfl, rfl⟩ := Prod.mk.inj (Option.some.inj h)
    exact ⟨g, hg, rfl, rfl⟩
  · cases h

theorem effect?_delete {conditions : List Condition}
    (h : (delete model conditions).effect? db = some (p, f)) :
    ∃ g, target db model conditions = .ok g ∧ p = g.place ∧ f = fun _ => none := by
  rw [effect?] at h
  split at h
  · rename_i g hg
    obtain ⟨rfl, rfl⟩ := Prod.mk.inj (Option.some.inj h)
    exact ⟨g, hg, rfl, rfl⟩
  · cases h

end Call

/-! ## Changes at one place -/

variable {tables : Fields Table} {tx tx' : Transaction} {p q : Place} {w : Write}
  {b : WriteBuffer} {updates : Fields StagedUpdate} {f f' : Option Item → Option Item}

/-- The second transaction is in step with the tables, and it sees what the first one sees, but at one
place what becomes of the row there. -/
structure Changes (tables : Fields Table) (tx tx' : Transaction) (p : Place)
    (f : Option Item → Option Item) : Prop where
  isIn : p.IsIn tables
  tracks : Tracks tables tx'
  rowAt_eq : ∀ q : Place, q.IsIn tables →
    tx'.rowAt tables q = if q = p then f (tx.rowAt tables p) else tx.rowAt tables q

theorem Changes.congr (h : Changes tables tx tx' p f)
    (hf : f (tx.rowAt tables p) = f' (tx.rowAt tables p)) : Changes tables tx tx' p f' where
  isIn := h.isIn
  tracks := h.tracks
  rowAt_eq q hq := hf ▸ h.rowAt_eq q hq

namespace Tracks

theorem changes_self (h : Tracks tables tx) (hp : p.IsIn tables)
    (hf : f (tx.rowAt tables p) = tx.rowAt tables p) : Changes tables tx tx p f where
  isIn := hp
  tracks := h
  rowAt_eq q _ := by
    split
    · rename_i heq
      rw [hf, heq]
    · rfl

/-- A write that is no update is staged, and no staged row is left for its place. -/
theorem changes_erase (h : Tracks tables tx) (htables : TablesKeyed tables) (hw : w.Fits tables)
    (hplace : w.place tables = p) (hstage : tx.buffer.stage w p.key = .ok b)
    (hagrees : ∀ updates, Agrees tables updates p (some w) ↔ Fields.get? updates p.id = none) :
    Changes tables tx ⟨b, Fields.erase tx.updates p.id⟩ p
      fun _ => rowAfter (Fields.erase tx.updates p.id) p w where
  isIn := hplace ▸ hw.isIn
  tracks := h.stage hw hplace hstage
    ((hagrees _).mpr (by rw [Fields.get?_erase, if_pos rfl]))
    (fun _ hq hne => get?_erase_of_ne htables _ (hplace ▸ hw.isIn) hq hne) (h.ordered.erase _)
    fun field hfield => h.exists_place field (List.mem_filter.mp hfield).1
  rowAt_eq _ hq := h.rowAt_stage hw hplace hstage
    (fun _ hq hne => get?_erase_of_ne htables _ (hplace ▸ hw.isIn) hq hne) hq

/-- An update is staged with the row that it leads to. -/
theorem changes_insert (h : Tracks tables tx) (htables : TablesKeyed tables) {patch : Patch}
    {u : StagedUpdate} (hp : p.IsIn tables) (hstands : u.Stands tables p patch)
    (hstage : tx.buffer.stage (.update p.table p.key patch.expression patch.attributes) p.key =
      .ok b) :
    Changes tables tx ⟨b, Fields.insert tx.updates p.id u⟩ p fun _ => some u.next := by
  obtain ⟨t, ht, hkey, hparts⟩ := hp
  have hp : p.IsIn tables := ⟨t, ht, hkey, hparts⟩
  have hw : Write.Fits tables (.update p.table p.key patch.expression patch.attributes) :=
    ⟨t, ht, hparts, fun _ => hkey⟩
  have hplace : Write.place tables (.update p.table p.key patch.expression patch.attributes) = p :=
    (Write.place_eq ht).trans (by rw [Write.row, hkey.keyOf_eq, Write.table])
  have hget : Fields.get? (Fields.insert tx.updates p.id u) p.id = some u :=
    Fields.get?_insert_self _ _ u
  have hothers : ∀ q : Place, q.IsIn tables → q ≠ p →
      Fields.get? (Fields.insert tx.updates p.id u) q.id = Fields.get? tx.updates q.id :=
    fun q hq hne => get?_insert_of_ne htables _ u hp hq hne
  refine ⟨hp, h.stage hw hplace hstage ⟨u, hget, hstands⟩ hothers (h.ordered.insert _ u) ?_,
    fun q hq => ?_⟩
  · rintro ⟨id, v⟩ hfield
    have hsome := (h.ordered.insert p.id u).get?_of_mem hfield
    rw [Fields.get?_insert] at hsome
    split at hsome
    · rename_i heq
      obtain rfl := Option.some.inj hsome
      exact ⟨p, hp, heq.symm, hstands.table_eq⟩
    · exact h.exists_place (id, v) (Fields.mem_of_get?_eq_some hsome)
  · rw [h.rowAt_stage hw hplace hstage hothers hq, rowAfter, hget]
    rfl

/-- A row is put at its place. -/
theorem changes_put (h : Tracks tables tx) (htables : TablesKeyed tables) {item : Item}
    (hholds : p.Holds tables item) (hstage : tx.buffer.stage (.put p.table item) p.key = .ok b) :
    Changes tables tx ⟨b, Fields.erase tx.updates p.id⟩ p fun _ => some item := by
  obtain ⟨t, ht, hparts, hkey⟩ := hholds
  exact h.changes_erase (w := .put p.table item) htables ⟨t, ht, hparts, fun heq => by cases heq⟩
    ((Write.place_eq ht).trans (by rw [Write.row, hkey, Write.table])) hstage fun _ => Iff.rfl

/-- The row at a place is dropped. -/
theorem changes_delete (h : Tracks tables tx) (htables : TablesKeyed tables) (hp : p.IsIn tables)
    (hstage : tx.buffer.stage (.delete p.table p.key) p.key = .ok b) :
    Changes tables tx ⟨b, Fields.erase tx.updates p.id⟩ p fun _ => none := by
  obtain ⟨t, ht, hkey, hparts⟩ := hp
  exact h.changes_erase (w := .delete p.table p.key) htables ⟨t, ht, hparts, fun _ => hkey⟩
    ((Write.place_eq ht).trans (by rw [Write.row, hkey.keyOf_eq, Write.table])) hstage
    fun _ => Iff.rfl

/-! ## Updates -/

variable {db : Database} {model : String} {conditions : List Condition} {g : Target} {t : Table}
  {pageSize : Option Nat} {calm : Prop} {patch : Item}

/-- The new row that an update buffers, in place of the old one at its place. -/
theorem changes_stageUpdate (h : Tracks tables tx) (htables : TablesKeyed tables)
    {current next : Item} {result : Option Item × Transaction}
    (hstored : g.place.stored? tables = some current) (hholds : g.place.Holds tables next)
    (hresult : tx.stageUpdate g current next = .ok result) :
    Changes tables tx result.2 g.place fun _ => some next := by
  obtain ⟨change, b, hbetween, hstage, rfl⟩ := stageUpdate_cases hresult
  exact h.changes_insert htables hholds.isIn ⟨rfl, hstored, hholds, hbetween⟩ hstage

/-- A row that is put by the transaction is put again with the patch over it. -/
theorem changes_changePut (h : Tracks tables tx) (htables : TablesKeyed tables)
    (ht : Fields.get? tables g.table = some t) (hkeys : g.keys = t.keys)
    (hp : g.place.IsIn tables) {name : String} {item : Item}
    (hwrite : tx.buffer.write? g.place = some (.put name item))
    {result : Option Item × Transaction} (hresult : tx.changePut db model g item patch = .ok result) :
    Changes tables tx result.2 g.place (Option.map (patchOver db model g patch)) := by
  have hrow : tx.rowAt tables g.place = some item := rowAt_of_write? hwrite
  have habsent : Fields.get? tx.updates g.place.id = none := by
    have hagrees := h.agrees g.place hp
    rwa [hwrite] at hagrees
  rcases changePut_cases hresult with ⟨hmatches, b, hstage, rfl⟩ | ⟨hnot, rfl⟩
  · have hholds : g.place.Holds tables (db.patchedRow model g.keys item patch) := by
      rw [Database.patchedRow, hkeys]
      exact (h.holds_rowAt htables hp hrow).patched ht _
    have hchanges := h.changes_put htables hholds hstage
    rw [Fields.erase_of_get?_eq_none habsent] at hchanges
    refine hchanges.congr ?_
    rw [hrow, Option.map_some, patchOver, if_pos hmatches]
  · refine h.changes_self hp ?_
    rw [hrow, Option.map_some, patchOver, if_neg (Bool.eq_false_iff.mp hnot)]

/-- A row that is updated by the transaction gets the patch over what it will be. -/
theorem changes_extendUpdate (h : Tracks tables tx) (htables : TablesKeyed tables)
    (ht : Fields.get? tables g.table = some t) (hkeys : g.keys = t.keys) {patch' : Patch}
    {u : StagedUpdate} (hstands : u.Stands tables g.place patch')
    (hrow : tx.rowAt tables g.place = some u.next) {result : Option Item × Transaction}
    (hresult : tx.extendUpdate db model g u patch = .ok result) :
    Changes tables tx result.2 g.place (Option.map (patchOver db model g patch)) := by
  rcases extendUpdate_cases hresult with ⟨hmatches, hresult⟩ | ⟨hnot, rfl⟩
  · refine (h.changes_stageUpdate htables hstands.stored ?_ hresult).congr ?_
    · rw [Database.patchedRow, hkeys]
      exact hstands.holds.patched ht _
    · rw [hrow, Option.map_some, patchOver, if_pos hmatches]
  · refine h.changes_self hstands.holds.isIn ?_
    rw [hrow, Option.map_some, patchOver, if_neg (Bool.eq_false_iff.mp hnot)]

/-- A row that the transaction has not written is read, and the update is to what is stored. -/
theorem ensures_updateStored (h : Tracks tables tx) (htables : TablesKeyed tables)
    (hlies : db.LiesOn model tables t) (hpageSize : pageSize ≠ some 0)
    (hg : target db model conditions = .ok g) (ht : Fields.get? tables g.table = some t)
    (hkeys : g.keys = t.keys) (hp : g.place.IsIn tables)
    (hdefinite : ∀ c ∈ g.conditions, c.IsDefinite)
    (hrow : tx.rowAt tables g.place = g.place.stored? tables) :
    Run.Ensures Memory.receive (Memory.Holds tables pageSize calm)
      (db.findOne { model, conditions } >>= fun found =>
        Run.ofExcept (tx.readUpdate db model g patch found))
      (fun result => Changes tables tx result.2 g.place (Option.map (patchOver db model g patch)))
      (fun _ => True) := by
  obtain ⟨-, -, hnormalized, hfixed⟩ := target_eq_ok hg
  by_cases hmodel : model = ""
  · exact (Database.ensures_findOne_unnamed (Q := fun _ => False) hmodel).bind fun _ h => h.elim
  have hfind : Run.Ensures Memory.receive (Memory.Holds tables pageSize calm)
      (db.findOne { model, conditions }) (Finds t.items (matchesAll g.conditions)) _ :=
    Database.ensures_findOne hlies hpageSize ⟨hmodel, rfl, rfl, rfl, rfl⟩ hnormalized hdefinite
  refine (hfind.imp (fun _ h => h) fun _ _ => trivial).bind fun found hfound =>
    .ofExcept (fun result hresult => ?_) fun _ _ => trivial
  have hkeyOf : ∀ item, item ∈ t.items → matchesAll g.conditions item = true →
      g.place.stored? tables = some item := fun item hmem hmatches =>
    (Place.stored?_eq ht).trans (((htables.wellKeyed _ t ht).find?_eq_some_iff (hp.isKey ht).1).mpr
      ⟨hmem, hasKey_of_matchesAll hfixed hmatches⟩)
  cases found with
  | none =>
    obtain rfl := Except.ok.inj hresult
    refine h.changes_self hp ?_
    rw [hrow]
    cases hstored : g.place.stored? tables with
    | none => rfl
    | some item =>
      obtain ⟨hmem, -⟩ := (htables.stored?_eq_some_iff ht).mp ⟨hp, hstored⟩
      rw [Option.map_some, patchOver, if_neg (by simp [hfound item hmem])]
  | some current =>
    obtain ⟨hmem, hmatches⟩ := hfound
    have hstored := hkeyOf current hmem hmatches
    refine (h.changes_stageUpdate htables hstored ?_ hresult).congr ?_
    · rw [Database.patchedRow, hkeys]
      exact (htables.holds_of_stored? hp hstored).patched ht _
    · rw [hrow, hstored, Option.map_some, patchOver, if_pos hmatches]

/-- An update puts its patch over what the transaction sees at its place, if that satisfies the
conditions. -/
theorem ensures_update (h : Tracks tables tx) (htables : TablesKeyed tables)
    (hlies : db.LiesIn tables) (hpageSize : pageSize ≠ some 0)
    (hregular : (Call.update model conditions patch).Regular db) :
    Run.Ensures Memory.receive (Memory.Holds tables pageSize calm)
      (tx.update db model conditions patch)
      (fun result => ∃ g, target db model conditions = .ok g ∧
        Changes tables tx result.2 g.place (Option.map (patchOver db model g patch)))
      (fun _ => True) := by
  rw [update_eq]
  refine .ofExcept_bind (fun g hg => ?_) fun _ _ => trivial
  obtain ⟨hparts, hdefinite⟩ := hregular g hg
  obtain ⟨t, ht, hlies, hkeys, hp⟩ := g.isIn hlies hg hparts
  have hagrees := h.agrees g.place hp
  have hpending : tx.buffer.pending g.table g.key = .ok (tx.buffer.write? g.place) :=
    h.sound.pending g.place
  refine .ofExcept_bind (fun own hown => ?_) fun _ _ => trivial
  rw [ownUpdate?, hpending] at hown
  refine Run.Ensures.imp (E := fun _ => True)
    (P := fun result : Option Item × Transaction =>
      Changes tables tx result.2 g.place (Option.map (patchOver db model g patch)))
    ?_ (fun _ hchanges => ⟨g, hg, hchanges⟩) fun _ h => h
  cases hwrite : tx.buffer.write? g.place with
  | none =>
    rw [hwrite] at hagrees hown
    have habsent : Fields.get? tx.updates g.id = none := hagrees
    dsimp only [bind, Except.bind] at hown
    rw [habsent] at hown
    obtain rfl := Except.ok.inj hown
    exact h.ensures_updateStored htables hlies hpageSize hg ht hkeys hp hdefinite
      (rowAt_of_unwritten hwrite)
  | some w =>
    rw [hwrite] at hagrees hown
    cases w with
    | put name item =>
      obtain ⟨result, hresult, rfl⟩ :=
        exists_of_map_eq_ok (show (tx.changePut db model g item patch).map some = .ok own from hown)
      exact .pure (h.changes_changePut htables ht hkeys hp hwrite hresult)
    | update name key expression attributes =>
      obtain ⟨u, hu, hstands⟩ := hagrees
      have hpresent : Fields.get? tx.updates g.id = some u := hu
      dsimp only [bind, Except.bind] at hown
      rw [hpresent] at hown
      obtain ⟨result, hresult, rfl⟩ := exists_of_map_eq_ok hown
      refine .pure (h.changes_extendUpdate htables ht hkeys hstands ?_ hresult)
      rw [rowAt_of_write? hwrite, rowAfter, hu, Option.map_some]
    | delete name key =>
      obtain rfl := Except.ok.inj hown
      refine .pure (h.changes_self hp ?_)
      rw [rowAt_of_write? hwrite]
      rfl

/-- A call that succeeds changes what the transaction sees by its effect. -/
theorem ensures_call (h : Tracks tables tx) (htables : TablesKeyed tables) (hlies : db.LiesIn tables)
    (hpageSize : pageSize ≠ some 0) {call : Call} (hregular : call.Regular db) :
    Run.Ensures Memory.receive (Memory.Holds tables pageSize calm) (call.run db tx)
      (fun tx' => ∃ p f, call.effect? db = some (p, f) ∧ Changes tables tx tx' p f)
      (fun _ => True) := by
  cases call with
  | create model data =>
    refine .ofExcept (fun tx' hresult => ?_) fun _ _ => trivial
    obtain ⟨created, hcreate, rfl⟩ := exists_of_map_eq_ok hresult
    obtain ⟨table, key, row, b, hrow, hstage, rfl⟩ := create_cases hcreate
    exact ⟨_, _, by rw [Call.effect?, hrow], h.changes_put htables
      (hlies.holds_newRow hrow (hregular table key row hrow)) hstage⟩
  | update model conditions patch =>
    refine (h.ensures_update htables hlies hpageSize hregular).bind fun result hresult => .pure ?_
    obtain ⟨g, hg, hchanges⟩ := hresult
    exact ⟨_, _, by rw [Call.effect?, hg], hchanges⟩
  | delete model conditions =>
    refine .ofExcept (fun tx' hresult => ?_) fun _ _ => trivial
    obtain ⟨g, b, hg, hstage, rfl⟩ := delete_cases hresult
    obtain ⟨-, -, -, -, hp⟩ := g.isIn hlies hg (hregular g hg)
    exact ⟨_, _, by rw [Call.effect?, hg], h.changes_delete htables hp hstage⟩

end Tracks

end Transaction

end KeyedQuery
