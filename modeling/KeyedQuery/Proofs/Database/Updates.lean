import KeyedQuery.Database.Writes
import KeyedQuery.Proofs.Interleaving
import KeyedQuery.Proofs.Patch.Edits
import KeyedQuery.Proofs.Store.Failures
import KeyedQuery.Proofs.Store.Writes
import KeyedQuery.Proofs.Transaction.Steps

/-!
# Updates next to each other

An update reads a row, works out what to change, and sends the change. Another update of the row may come
in between. `Memory.Spot.Blends` is what both of them keep, request by request: the row is a blend of what
each makes of it alone, nothing else has changed, and the failures that are scripted are still borne by
the repetitions that each has left. An update reads such a blend, finds in it the change that it would
find alone, and leaves the next blend (`Database.Addresses.meets_update`). So two updates that succeed
alone and change different attributes succeed in all turns (`Database.update_interleave`).
-/

namespace KeyedQuery

open Transaction

/-- The key of a row depends on its key attributes only. -/
theorem KeySchema.keyOf_congr (keys : KeySchema) {a b : Item}
    (h : ∀ k ∈ keys.attributes, Fields.get? a k = Fields.get? b k) : keys.keyOf a = keys.keyOf b := by
  have hvalues : ∀ attributes : List String, (∀ k ∈ attributes, Fields.get? a k = Fields.get? b k) →
      valuesOf a attributes = valuesOf b attributes := by
    intro attributes
    induction attributes with
    | nil => exact fun _ => rfl
    | cons k rest ih =>
      intro h
      rw [valuesOf, valuesOf, h k List.mem_cons_self,
        ih fun j hj => h j (List.mem_cons_of_mem k hj)]
  rw [keyOf, keyOf, hvalues keys.attributes h]

/-! ## Rows in their places -/

/-- A row in its place in a memory. -/
structure Memory.Spot (m : Memory) (row : Item) where
  name : String
  table : Table
  before : List Item
  after : List Item
  get?_eq : Fields.get? m.tables name = some table
  items_eq : table.items = before ++ row :: after
  wellKeyed : table.WellKeyed

namespace Memory.Spot

variable {m : Memory} {row item next key : Item} (s : m.Spot row)

/-- The table with another row in the place. -/
def put (item : Item) : Table :=
  { s.table with items := s.before ++ item :: s.after }

theorem mem_items : row ∈ s.table.items :=
  s.items_eq ▸ List.mem_append_right _ List.mem_cons_self

theorem put_self : s.put row = s.table := by
  rw [put, ← s.items_eq]

theorem table_of_tables_eq (m' : Memory) (h : m'.tables = m.tables) : m'.table s.name = .ok s.table := by
  rw [Memory.table, h, s.get?_eq]

/-- The row has the key attributes of the one that was in the place. -/
def Fits (item : Item) : Prop :=
  ∀ k ∈ s.table.keys.attributes, Fields.get? item k = Fields.get? row k

variable {s}

theorem Fits.keyOf_eq (h : s.Fits item) : s.table.keyOf item = s.table.keyOf row :=
  s.table.keyOf_eq_of_get?_eq h

theorem Fits.carries (h : s.Fits item) : s.table.Carries item := by
  intro k hk
  rw [h k hk]
  exact s.wellKeyed.carries row s.mem_items k hk

theorem Fits.sameKey (h : s.Fits item) (h' : s.Fits next) : s.table.sameKey item next = true := by
  rw [Table.sameKey, h'.keyOf_eq, ← h.keyOf_eq]
  exact s.table.sameKey_refl item

theorem Fits.upsert_put (h : s.Fits item) (h' : s.Fits next) :
    (s.put item).upsert next = s.put next := by
  obtain ⟨hbefore, -⟩ := s.wellKeyed.others_apart s.items_eq
    (Fits.sameKey (fun _ _ => rfl) h') h'.carries
  exact Table.upsert_eq_of_items rfl (h.sameKey h') hbefore

theorem Fits.wellKeyed_put (h : s.Fits item) : (s.put item).WellKeyed := by
  have hupsert : s.table.upsert item = s.put item := by
    have hrow : s.Fits row := fun _ _ => rfl
    rw [← hrow.upsert_put h, s.put_self]
  exact hupsert ▸ s.wellKeyed.upsert h.carries

/-- The row in the place is found by its key. -/
theorem Fits.find?_put (h : s.Fits item) (hkey : s.table.IsKey key) (hrow : row.hasKey key = true) :
    (s.put item).find? key = some item := by
  refine (h.wellKeyed_put.find?_eq_some_iff (hkey.congr rfl)).mpr
    ⟨List.mem_append_right _ List.mem_cons_self, ?_⟩
  rw [hkey.hasKey] at hrow ⊢
  exact Table.sameKey_trans (h.sameKey fun _ _ => rfl) hrow

end Memory.Spot

/-! ## Memories that two updates write to -/

/-- How far an update has come: whether its write has been carried out, and how many repetitions are
left for a request of a kind. -/
structure Progress where
  written : Bool
  left : RequestKind → Nat

/-- The memory is as it was, apart from a row that is a blend of what two updates make of it, and apart
from failures that both of them still bear. -/
structure Memory.Spot.Blends {m₀ : Memory} {row : Item} (s : m₀.Spot row)
    (e f : Edit s.table.keys row) (x y : Progress) (m : Memory) : Prop where
  exists_row : ∃ item, row.Blends e f x.written y.written item ∧
    ∀ name, Fields.get? m.tables name =
      if s.name = name then some (s.put item) else Fields.get? m₀.tables name
  pageSize_eq : m.pageSize = m₀.pageSize
  bears : ∀ kind, kind = .query ∨ kind = .write →
    m.Bears kind (x.left kind) ∧ m.Bears kind (y.left kind)

namespace Memory.Spot.Blends

variable {m₀ m : Memory} {row : Item} {s : m₀.Spot row} {e f : Edit s.table.keys row}
  {x y : Progress}

theorem symm (h : s.Blends e f x y m) : s.Blends f e y x m := by
  obtain ⟨item, hitem, htables⟩ := h.exists_row
  exact ⟨⟨item, hitem.symm, htables⟩, h.pageSize_eq, fun kind hkind => (h.bears kind hkind).symm⟩

theorem flip (s : m₀.Spot row) (e f : Edit s.table.keys row) :
    (fun y x m => s.Blends e f x y m) = s.Blends f e := by
  funext y x m
  exact propext ⟨symm, symm⟩

/-- A request that succeeds on its own is answered in the end, since its repetitions last. -/
theorem meets_request (retry : RetryConfig) {r : Request} {A : Progress → r.Answer → Prop}
    (hr : r.kind = .query ∨ r.kind = .write) (hleft : x.left r.kind = retry.repetitions)
    (h : ∀ x' : Progress, x'.written = x.written →
      (∀ kind ≠ r.kind, x'.left kind = x.left kind) → ∀ y m, s.Blends e f x' y m →
      ∃ answer m' x'', m.perform r = (.ok answer, m') ∧ s.Blends e f x'' y m' ∧ A x'' answer) :
    Run.Meets Memory.receive (s.Blends e f) (retry.request r) A x := by
  refine Run.Meets.request retry (B := fun n x' => x'.left r.kind = n ∧ x'.written = x.written ∧
    ∀ kind ≠ r.kind, x'.left kind = x.left kind) ?_ ⟨hleft, rfl, fun _ _ => rfl⟩
  rintro n x' ⟨hn, hwritten, hothers⟩ y m hm
  rcases m.receive_cases r with ⟨-, hreceive⟩ | ⟨before, fault, after, hfailures, hreceive⟩
  · obtain ⟨answer, m', x'', hperform, hm', hA⟩ := h x' hwritten hothers y m hm
    rw [hreceive, hperform]
    exact ⟨x'', hm', hA⟩
  · rw [hreceive]
    obtain ⟨htransient, left, hlast, hbears⟩ := (hm.bears r.kind hr).1.exists_left hfailures
    have hsublist : (before ++ after).Sublist m.failures := by
      rw [hfailures]
      exact (List.sublist_cons_self _ after).append_left before
    refine ⟨⟨x'.written, fun kind => if kind = r.kind then left else x'.left kind⟩,
      ⟨hm.exists_row, hm.pageSize_eq, fun kind hkind => ⟨?_, ?_⟩⟩, htransient, left, ?_⟩
    · dsimp only
      split
      · rename_i heq
        exact heq ▸ hbears
      · exact (hm.bears kind hkind).1.of_sublist hsublist
    · exact (hm.bears kind hkind).2.of_sublist hsublist
    · refine ⟨hn ▸ hlast, if_pos rfl, hwritten, fun kind hne => ?_⟩
      exact (if_neg hne).trans (hothers kind hne)

theorem table_eq {item : Item} (h : ∀ name, Fields.get? m.tables name =
    if s.name = name then some (s.put item) else Fields.get? m₀.tables name) :
    m.table s.name = .ok (s.put item) := by
  rw [Memory.table, h s.name, if_pos rfl]

end Memory.Spot.Blends

/-- Updating the row of a key changes it where it is. -/
theorem Memory.perform_update {m : Memory} {name : String} {t : Table} {key row : Item}
    (ht : m.table name = .ok t) (hfind : t.find? key = some row) (expression : String)
    (attributes : Attributes) :
    m.perform (.update name key expression attributes true) =
      match Item.update attributes expression row with
      | .ok next => (.ok (some next), m.withTable name (t.upsert next))
      | .error fault => (.error fault.toStoreFault, m) := by
  simp only [perform, Table.update, ht, bind, Except.bind, hfind, Option.getD_some]
  cases Item.update attributes expression row <;> rfl

/-! ## Single updates -/

namespace Database

/-- A write that succeeds has borne the failures for writes, and has been carried out. -/
theorem of_write_eq {db : Database} {r : Request} {answer : r.Answer} {w w' : World Memory}
    (h : (db.write r).run.run Memory.receive w = (.ok answer, w')) :
    w.store.Bears r.kind db.config.retry.repetitions ∧
      (w.store.without r.kind).perform r = (.ok answer, w'.store) := by
  obtain ⟨sent, middle, hsent, h⟩ := Run.exists_of_run_bind_eq h
  obtain ⟨hanswer, rfl⟩ := Prod.mk.inj h
  obtain rfl := Except.ok.inj hanswer
  obtain ⟨hbears, hperform⟩ := Memory.of_request_eq_ok (congrArg Prod.fst hsent)
  rw [show (db.config.retry.request r).run.run Memory.receive w = _ from hsent] at hperform
  exact ⟨hbears, hperform⟩

/-- An update that succeeds has found no row, or it has read one and sent one write. -/
theorem update_cases {db : Database} {model : String} {conditions : List Condition} {patch : Item}
    {result : Option Item} {w w' : World Memory}
    (h : (db.update model conditions patch).run.run Memory.receive w = (.ok result, w')) :
    (result = none ∧ (db.findOne { model, conditions }).run.run Memory.receive w = (.ok none, w')) ∨
    ∃ current table keys key change, ∃ middle : World Memory, ∃ updated : Option Item,
      ((db.findOne { model, conditions }).run.run Memory.receive w) = (.ok (some current), middle) ∧
      db.resolver.table model = .ok table ∧ db.resolver.primaryKey model = .ok keys ∧
      rowKey model keys current = .ok key ∧
      Patch.between current (db.patchedRow model keys current patch) = .ok change ∧
      (db.write (.update table key change.expression change.attributes true)).run.run Memory.receive middle =
        (.ok updated, w') ∧
      result = some (updated.getD (db.patchedRow model keys current patch)) := by
  unfold update at h
  obtain ⟨found, middle, hfound, h⟩ := Run.exists_of_run_bind_eq h
  cases found with
  | none =>
    obtain ⟨hnone, rfl⟩ := Prod.mk.inj h
    exact .inl ⟨(Except.ok.inj hnone).symm, hfound⟩
  | some current =>
    obtain ⟨table, htable, h⟩ := Run.exists_of_run_ofExcept_bind_eq h
    obtain ⟨keys, hkeys, h⟩ := Run.exists_of_run_ofExcept_bind_eq h
    obtain ⟨key, hkey, h⟩ := Run.exists_of_run_ofExcept_bind_eq h
    obtain ⟨change, hchange, h⟩ := Run.exists_of_run_ofExcept_bind_eq h
    obtain ⟨updated, last, hwrite, h⟩ := Run.exists_of_run_bind_eq h
    obtain ⟨hrow, rfl⟩ := Prod.mk.inj h
    exact .inr ⟨current, table, keys, key, change, middle, updated, hfound, htable, hkeys, hkey,
      of_mapError_eq_ok hchange, hwrite, (Except.ok.inj hrow).symm⟩

end Database

/-- The conditions fix the key of the row in its place. -/
structure Database.Addresses (db : Database) {m₀ : Memory} {row : Item} (s : m₀.Spot row)
    (model : String) (conditions : List Condition) : Prop where
  model_ne : model ≠ ""
  table_eq : db.resolver.table model = .ok s.name
  keys_eq : db.resolver.primaryKey model = .ok s.table.keys
  exists_key : ∃ normalized key, normalizeAll db.resolver model conditions = .ok normalized ∧
    FixesKey s.table.keys normalized ∧ keyOfConditions model s.table.keys normalized = .ok key ∧
    row.hasKey key = true

namespace Database.Addresses

variable {db : Database} {m₀ : Memory} {row : Item} {s : m₀.Spot row} {model : String}
  {conditions : List Condition} {e f : Edit s.table.keys row} {x : Progress}

/-- One query shows the row that is in the place. -/
theorem exists_page (h : db.Addresses s model conditions) : ∃ request rest,
    request.table = s.name ∧ (Request.page request).kind = .query ∧
    db.findOne { model, conditions } = db.request (.page request) >>= rest ∧
    ∀ item, s.Fits item → ∀ pageSize ≠ some 0, ∃ page,
      (s.put item).page pageSize request = .ok page ∧
      rest page = (do
        Run.count .finds 1
        pure (some item)) := by
  obtain ⟨normalized, key, hnormalized, hfixes, hkey, hrow⟩ := h.exists_key
  obtain ⟨request, rest, hrequest, hkind, hfindOne, hpages⟩ :=
    exists_findOne_page (q := { model, conditions }) ⟨h.model_ne, rfl, rfl, rfl, rfl⟩ h.table_eq
      h.keys_eq hnormalized hfixes hkey
  refine ⟨request, rest, hrequest, hkind, hfindOne, fun item hfits pageSize hpageSize => ?_⟩
  obtain ⟨page, hpage, hrest⟩ := hpages (s.put item) rfl hfits.wellKeyed_put.unique pageSize hpageSize
  rw [hfits.find?_put (isKey_of_keyOfConditions hkey) hrow] at hrest
  exact ⟨page, hpage, hrest⟩

/-- A query that succeeds alone finds the row, and has borne the failures for queries. -/
theorem of_findOne_eq (h : db.Addresses s model conditions) (hpageSize : m₀.pageSize ≠ some 0)
    {w w' : World Memory} (hstore : w.store = m₀) {found : Option Item}
    (hfound : (db.findOne { model, conditions }).run.run Memory.receive w = (.ok found, w')) :
    found = some row ∧ w'.store = m₀.without .query ∧
      m₀.Bears .query db.config.retry.repetitions := by
  obtain ⟨request, rest, hrequest, hkind, hfindOne, hpages⟩ := h.exists_page
  obtain ⟨page, hpage, hrest⟩ := hpages row (fun _ _ => rfl) m₀.pageSize hpageSize
  rw [s.put_self] at hpage
  rw [hfindOne] at hfound
  obtain ⟨shown, middle, hshown, hfound⟩ := Run.exists_of_run_bind_eq hfound
  obtain ⟨hbears, hperform⟩ := Memory.of_request_eq_ok (congrArg Prod.fst hshown)
  rw [hstore, hkind] at hbears hperform
  rw [show (db.config.retry.request (.page request)).run.run Memory.receive w = _ from hshown] at hperform
  have hanswer : ((m₀.without .query).table request.table).bind
      (fun t => t.page m₀.pageSize request) = .ok shown := congrArg Prod.fst hperform
  rw [hrequest, s.table_of_tables_eq (m₀.without .query) rfl] at hanswer
  obtain rfl := Except.ok.inj (hpage.symm.trans hanswer)
  rw [hrest] at hfound
  obtain ⟨hrow, rfl⟩ := Prod.mk.inj hfound
  exact ⟨(Except.ok.inj hrow).symm, (congrArg Prod.snd hperform).symm, hbears⟩

/-- An update that succeeds alone is an edit of the row, and has borne the failures for its
requests. -/
theorem of_update_eq_ok (h : db.Addresses s model conditions) (hpageSize : m₀.pageSize ≠ some 0)
    {w : World Memory} (hstore : w.store = m₀) {patch a : Item}
    (ha : ((db.update model conditions patch).run.run Memory.receive w).1 = .ok (some a)) :
    ∃ key change, rowKey model s.table.keys row = .ok key ∧
      Patch.between row (s.table.keys.patched row (db.resolver.physicalItem model patch)) =
        .ok change ∧
      Item.update change.attributes change.expression row = .ok a ∧
      m₀.Bears .query db.config.retry.repetitions ∧ m₀.Bears .write db.config.retry.repetitions := by
  rcases Database.update_cases (Prod.ext ha rfl) with ⟨hnone, -⟩ | ⟨current, name, keys, key, change,
    middle, updated, hfound, hname, hkeys, hkey, hchange, hwrite, ha⟩
  · cases hnone
  obtain ⟨hcurrent, hmiddle, hqueries⟩ := h.of_findOne_eq hpageSize hstore hfound
  obtain rfl := Option.some.inj hcurrent
  obtain rfl := Except.ok.inj (h.table_eq.symm.trans hname)
  obtain rfl := Except.ok.inj (h.keys_eq.symm.trans hkeys)
  obtain ⟨hwrites, hperform⟩ := Database.of_write_eq hwrite
  rw [hmiddle] at hwrites hperform
  have hfind : s.table.find? key = some current := by
    obtain ⟨rfl, hcarries⟩ := Table.of_rowKey_eq_ok hkey
    exact (s.wellKeyed.find?_eq_some_iff (Table.isKey_keyOf hcarries)).mpr
      ⟨s.mem_items, s.table.sameKey_refl current⟩
  have hperform : ((m₀.without .query).without .write).perform
      (.update s.name key change.expression change.attributes true) = (.ok updated, _) := hperform
  rw [Memory.perform_update (s.table_of_tables_eq ((m₀.without .query).without .write) rfl) hfind] at hperform
  have hwrites : (m₀.without .query).Bears .write db.config.retry.repetitions := hwrites
  refine ⟨key, change, hkey, hchange, ?_, hqueries, hwrites.of_without (by decide)⟩
  cases hupdate : Item.update change.attributes change.expression current with
  | error fault =>
    rw [hupdate] at hperform
    cases hperform
  | ok next =>
    rw [hupdate] at hperform
    obtain rfl := Except.ok.inj (Prod.mk.inj hperform).1
    exact congrArg Except.ok (Option.some.inj ha).symm

/-- An update reads the row as the other update has left it. -/
theorem meets_findOne (h : db.Addresses s model conditions) (hpageSize : m₀.pageSize ≠ some 0)
    (hwritten : x.written = false) (hleft : x.left .query = db.config.retry.repetitions) :
    Run.Meets Memory.receive (s.Blends e f) (db.findOne { model, conditions })
      (fun x' found => x'.written = false ∧ x'.left .write = x.left .write ∧
        ∃ item second, found = some item ∧ row.Blends e f false second item) x := by
  obtain ⟨request, rest, hrequest, hkind, hfindOne, hpages⟩ := h.exists_page
  rw [hfindOne]
  refine Run.Meets.bind (Q := fun x' page => x'.written = false ∧ x'.left .write = x.left .write ∧
    ∃ item second, row.Blends e f false second item ∧ rest page = (do
      Run.count .finds 1
      pure (some item))) ?_ ?_
  · refine Memory.Spot.Blends.meets_request db.config.retry (.inl hkind) (hkind ▸ hleft) ?_
    intro x' hwritten' hothers y m hm
    obtain ⟨item, hitem, htables⟩ := hm.exists_row
    obtain ⟨page, hpage, hrest⟩ := hpages item (fun k hk => hitem.get?_key hk) m.pageSize
      (hm.pageSize_eq ▸ hpageSize)
    refine ⟨page, m, x', ?_, hm, hwritten'.trans hwritten, hothers .write (by rw [hkind]; decide),
      item, y.written, ?_, hrest⟩
    · show ((m.table request.table).bind fun t => t.page m.pageSize request, m) = _
      rw [hrequest, Memory.Spot.Blends.table_eq htables]
      exact congrArg (·, m) hpage
    · rwa [hwritten', hwritten] at hitem
  · rintro x' page ⟨hwritten', hleft', item, second, hitem, hrest⟩
    rw [hrest]
    exact ⟨some item, rfl, hwritten', hleft', item, second, rfl, hitem⟩

/-- The write of an edit changes the row as it is by then. -/
theorem meets_write (db : Database) {key : Item} (hkey : s.table.keyOf row = key)
    (hdisjoint : e.names.Disjoint f.names) (hwritten : x.written = false)
    (hleft : x.left .write = db.config.retry.repetitions) :
    Run.Meets Memory.receive (s.Blends e f)
      (db.write (.update s.name key e.change.expression e.change.attributes true))
      (fun x' answer => x'.written = true ∧ ∃ item, answer = some item) x := by
  unfold Database.write
  refine Run.Meets.bind (Q := fun x' answer => x'.written = true ∧ ∃ item, answer = some item) ?_
    fun x' answer hanswer => ⟨answer, rfl, hanswer⟩
  refine Memory.Spot.Blends.meets_request db.config.retry (.inr rfl) hleft ?_
  intro x' hwritten' _ y m hm
  obtain ⟨item, hitem, htables⟩ := hm.exists_row
  rw [hwritten', hwritten] at hitem
  obtain ⟨next, hupdate, hnext⟩ := hitem.exists_update hdisjoint
  have hfits : s.Fits item := fun k hk => hitem.get?_key hk
  have hisKey : s.table.IsKey key := hkey ▸ Table.isKey_keyOf (Memory.Spot.Fits.carries fun _ _ => rfl)
  have hfind : (s.put item).find? key = some item :=
    hfits.find?_put hisKey (hkey ▸ s.table.sameKey_refl row)
  refine ⟨some next, m.withTable s.name (s.put next), { x' with written := true }, ?_, ?_, rfl, next,
    rfl⟩
  · rw [Memory.perform_update (Memory.Spot.Blends.table_eq htables) hfind, hupdate,
      ← hfits.upsert_put fun k hk => hnext.get?_key hk]
  · have hfailures : (m.withTable s.name (s.put next)).failures.Sublist m.failures := .refl _
    refine ⟨⟨next, hnext, fun name => ?_⟩, hm.pageSize_eq, fun kind hkind =>
      ⟨(hm.bears kind hkind).1.of_sublist hfailures, (hm.bears kind hkind).2.of_sublist hfailures⟩⟩
    show Fields.get? (Fields.insert m.tables s.name (s.put next)) name = _
    rw [Fields.get?_insert, htables name]
    split <;> rfl

/-- An update reads the row, and changes what has become of it. -/
theorem meets_update (h : db.Addresses s model conditions) (hpageSize : m₀.pageSize ≠ some 0)
    {patch key : Item} (hpatch : e.patch = db.resolver.physicalItem model patch)
    (hkey : rowKey model s.table.keys row = .ok key) (hdisjoint : e.names.Disjoint f.names)
    (hwritten : x.written = false) (hleft : ∀ kind, x.left kind = db.config.retry.repetitions) :
    Run.Meets Memory.receive (s.Blends e f) (db.update model conditions patch)
      (fun x' found => x'.written = true ∧ ∃ item, found = some item) x := by
  unfold Database.update
  refine (h.meets_findOne hpageSize hwritten (hleft .query)).bind ?_
  rintro x' - ⟨hwritten', hleft', item, second, rfl, hitem⟩
  have hitemKey : rowKey model s.table.keys item = .ok key := by
    rw [← hkey, rowKey, rowKey, s.table.keys.keyOf_congr fun k hk => hitem.get?_key hk]
  have hchange : patchBetween item (db.patchedRow model s.table.keys item patch) = .ok e.change := by
    rw [patchBetween, patchedRow, ← hpatch, hitem.between_eq]
    rfl
  refine .ofExcept_bind h.table_eq (.ofExcept_bind h.keys_eq (.ofExcept_bind hitemKey
    (.ofExcept_bind hchange ?_)))
  refine (meets_write db (Table.of_rowKey_eq_ok hkey).1 hdisjoint hwritten'
    (hleft'.trans (hleft .write))).bind ?_
  rintro x'' - ⟨hdone, next, rfl⟩
  exact .pure ⟨hdone, next, rfl⟩

end Database.Addresses

/-! ## Two updates -/

/-- In the table of a model, conditions that fix the key of a row address it. -/
theorem Database.addresses {db : Database} {m₀ : Memory} {row : Item} {s : m₀.Spot row}
    {model : String} {conditions : List Condition} (hmodel : model ≠ "")
    (htable : db.resolver.table model = .ok s.name)
    (hkeys : db.resolver.primaryKey model = .ok s.table.keys) {normalized : List NormalizedCondition}
    (hconditions : normalizeAll db.resolver model conditions = .ok normalized)
    (hfixes : FixesKey s.table.keys normalized) (hmatches : matchesAll normalized row = true) :
    db.Addresses s model conditions := by
  obtain ⟨key, hkey⟩ := hfixes.exists_key model
  exact ⟨hmodel, htable, hkeys, normalized, key, hconditions, hfixes, hkey,
    hasKey_of_matchesAll hkey hmatches⟩

/-- Updates of models only succeed. -/
theorem Database.ne_of_update_eq_ok {db : Database} {model : String} {conditions : List Condition}
    {patch a : Item} {w : World Memory}
    (ha : ((db.update model conditions patch).run.run Memory.receive w).1 = .ok (some a)) :
    model ≠ "" := by
  rintro rfl
  unfold update at ha
  obtain ⟨found, hfound, -⟩ := Run.exists_of_run_bind_eq_ok ha
  have hholds : Memory.Holds w.store.tables w.store.pageSize False w.store :=
    ⟨rfl, rfl, False.elim, False.elim⟩
  have hend : Run.Ensures Memory.receive (Memory.Holds w.store.tables w.store.pageSize False)
      (db.findOne { model := "", conditions }) (fun _ => False) fun _ => True :=
    ensures_findOne_unnamed rfl
  have hend := (hend w hholds).2
  rwa [hfound] at hend

/-- Putting another row in the place replaces the row there. -/
theorem Memory.Spot.items_put {m : Memory} {row : Item} (s : m.Spot row) (item : Item) :
    (s.put item).items = s.table.items.map fun r => if r = row then item else r := by
  have hnodup := s.wellKeyed.nodup
  rw [s.items_eq, List.nodup_middle, List.nodup_cons, List.mem_append, not_or] at hnodup
  obtain ⟨⟨hbefore, hafter⟩, -⟩ := hnodup
  have hkeep : ∀ {items : List Item}, row ∉ items →
      items.map (fun r => if r = row then item else r) = items := by
    intro items hnot
    have hne : ∀ r ∈ items, (if r = row then item else r) = id r := fun r hr =>
      if_neg fun heq : r = row => hnot (heq ▸ hr)
    rw [List.map_congr_left hne, List.map_id]
  rw [s.items_eq, List.map_append, List.map_cons, if_pos rfl, hkeep hbefore, hkeep hafter]
  rfl

/-- Two edits of different attributes that update one row are both carried out, in all turns. -/
theorem Database.interleave_edits {db db' : Database} {w : World Memory} {row : Item}
    {s : w.store.Spot row} {model : String} {conditions conditions' : List Condition}
    (h : db.Addresses s model conditions) (h' : db'.Addresses s model conditions')
    (hpageSize : w.store.pageSize ≠ some 0) {e f : Edit s.table.keys row} {patch patch' : Item}
    (hpatch : e.patch = db.resolver.physicalItem model patch)
    (hpatch' : f.patch = db'.resolver.physicalItem model patch') {key : Item}
    (hkey : rowKey model s.table.keys row = .ok key) (hdisjoint : e.names.Disjoint f.names)
    (hbears : ∀ kind, kind = .query ∨ kind = .write →
      w.store.Bears kind db.config.retry.repetitions ∧ w.store.Bears kind db'.config.retry.repetitions)
    (turns : List Turn) :
    let outcome := Dialogue.interleave Memory.receive turns (db.update model conditions patch).run
      (db'.update model conditions' patch').run w
    (∃ b b', outcome.1 = (.ok (some b), .ok (some b'))) ∧
      ∃ merged, row.Blends e f true true merged ∧ ∀ name, outcome.2.store.items name =
        if s.name = name then (w.store.items name).map fun r => if r = row then merged else r
        else w.store.items name := by
  intro outcome
  have hmeets := h.meets_update (f := f) (x := ⟨false, fun _ => db.config.retry.repetitions⟩)
    hpageSize hpatch hkey hdisjoint rfl fun _ => rfl
  have hmeets' := h'.meets_update (f := e) (x := ⟨false, fun _ => db'.config.retry.repetitions⟩)
    hpageSize hpatch' hkey hdisjoint.symm rfl fun _ => rfl
  rw [← Memory.Spot.Blends.flip] at hmeets'
  have hstart : s.Blends e f ⟨false, fun _ => db.config.retry.repetitions⟩
      ⟨false, fun _ => db'.config.retry.repetitions⟩ w.store := by
    refine ⟨⟨row, .refl row e f, fun name => ?_⟩, rfl, hbears⟩
    rw [s.put_self]
    split
    · rename_i hname
      exact hname ▸ s.get?_eq
    · rfl
  obtain ⟨x, y, hend, ⟨_, hfirst, hx, b, rfl⟩, ⟨_, hsecond, hy, b', rfl⟩⟩ :=
    hmeets.interleave turns hmeets' hstart
  obtain ⟨merged, hmerged, htables⟩ := hend.exists_row
  rw [hx, hy] at hmerged
  refine ⟨⟨b, b', Prod.ext hfirst hsecond⟩, merged, hmerged, fun name => ?_⟩
  unfold Memory.items
  rw [htables name]
  split
  · rename_i hname
    rw [← hname, s.get?_eq]
    exact s.items_put merged
  · rfl

/-- Two updates of one row that succeed alone and change different attributes both succeed in all turns,
if neither of them nests an attribute too deep. Each attribute is in the end as the update that changes
it leaves it alone, and the other attributes and rows are as they were. -/
theorem Database.update_interleave {s : Schema} (hs : s.TablesApart) {w : World Memory}
    (hstore : w.store.IsOf s) (hkeyed : w.store.WellKeyed) {db db' : Database}
    (hdb : db.resolver = s.resolver) (hdb' : db'.resolver = s.resolver) {model : String} {d : ModelDef}
    (hmodel : s.model? model = some d) {row : Item} (hrow : row ∈ w.store.items d.table)
    {conditions conditions' : List Condition} {normalized normalized' : List NormalizedCondition}
    (hnormalized : normalizeAll s.resolver model conditions = .ok normalized)
    (hnormalized' : normalizeAll s.resolver model conditions' = .ok normalized')
    (hfixes : FixesKey d.primaryKey normalized) (hfixes' : FixesKey d.primaryKey normalized')
    (hmatches : matchesAll normalized row = true) (hmatches' : matchesAll normalized' row = true)
    {patch patch' : Item}
    (hdisjoint : (d.primaryKey.patchedNames (s.resolver.physicalItem model patch)).Disjoint
      (d.primaryKey.patchedNames (s.resolver.physicalItem model patch')))
    {a a' : Item}
    (ha : ((db.update model conditions patch).run.run Memory.receive w).1 = .ok (some a))
    (ha' : ((db'.update model conditions' patch').run.run Memory.receive w).1 = .ok (some a'))
    (hnested : a.NestedOutside []) (hnested' : a'.NestedOutside []) (turns : List Turn) :
    let outcome := Dialogue.interleave Memory.receive turns (db.update model conditions patch).run
      (db'.update model conditions' patch').run w
    (∃ b b', outcome.1 = (.ok (some b), .ok (some b'))) ∧
      ∃ merged : Item,
        (∀ k, Fields.get? merged k =
          if k ∈ d.primaryKey.patchedNames (s.resolver.physicalItem model patch) then Fields.get? a k
          else if k ∈ d.primaryKey.patchedNames (s.resolver.physicalItem model patch') then
            Fields.get? a' k
          else Fields.get? row k) ∧
        (Fields.Ordered row → Fields.Ordered merged) ∧
        ∀ name, outcome.2.store.items name =
          if d.table = name then (w.store.items name).map fun r => if r = row then merged else r
          else w.store.items name := by
  obtain ⟨t, ht, hof⟩ := hstore.exists_table hs hmodel
  have hmem : row ∈ t.items := by
    obtain ⟨u, hu, hmem⟩ := Memory.mem_items_iff.mp hrow
    exact Option.some.inj (hu.symm.trans ht) ▸ hmem
  obtain ⟨before, after, hitems⟩ := List.append_of_mem hmem
  have hkeys := hof.keys_eq
  let spot : w.store.Spot row := ⟨d.table, t, before, after, ht, hitems, hkeyed _ _ ht⟩
  rw [← hkeys] at hfixes hfixes' hdisjoint ⊢
  have haddresses : db.Addresses spot model conditions :=
    addresses (ne_of_update_eq_ok ha) (hdb ▸ s.resolver_table hmodel)
      (hkeys ▸ hdb ▸ s.resolver_primaryKey hmodel) (hdb ▸ hnormalized) hfixes hmatches
  have haddresses' : db'.Addresses spot model conditions' :=
    addresses (ne_of_update_eq_ok ha') (hdb' ▸ s.resolver_table hmodel)
      (hkeys ▸ hdb' ▸ s.resolver_primaryKey hmodel) (hdb' ▸ hnormalized') hfixes' hmatches'
  obtain ⟨key, change, hkey, hchange, hupdate, hqueries, hwrites⟩ :=
    haddresses.of_update_eq_ok hstore.pageSize_ne rfl ha
  obtain ⟨-, change', -, hchange', hupdate', hqueries', hwrites'⟩ :=
    haddresses'.of_update_eq_ok hstore.pageSize_ne rfl ha'
  rw [hdb] at hchange
  rw [hdb'] at hchange'
  let e : Edit t.keys row := ⟨s.resolver.physicalItem model patch, change, a,
    (Fields.ordered_ofList _).nodup, hchange, hupdate, hnested⟩
  let f : Edit t.keys row := ⟨s.resolver.physicalItem model patch', change', a',
    (Fields.ordered_ofList _).nodup, hchange', hupdate', hnested'⟩
  obtain ⟨hresults, merged, hmerged, hitems⟩ := interleave_edits (s := spot) (e := e) (f := f)
    haddresses haddresses' hstore.pageSize_ne (by rw [hdb]) (by rw [hdb']) hkey hdisjoint
    (by rintro kind (rfl | rfl)
        · exact ⟨hqueries, hqueries'⟩
        · exact ⟨hwrites, hwrites'⟩) turns
  exact ⟨hresults, merged, hmerged.get?_eq, hmerged.ordered, hitems⟩

/-- One update renames user 1, and another one makes her a year older. The second one reads first, and the
first one writes first. -/
theorem Database.update_interleave_users :
    let user : ModelDef := { name := "user", table := "users", primaryKey := { partition := "id" } }
    let ada : Item := [("age", .num (.int 36)), ("id", .num (.int 1)), ("name", .str "ada")]
    let store := (Memory.ofSchema (.ofModels [user]) none).seed "users" [.map ada]
    let db : Database := ⟨(Schema.ofModels [user]).resolver, {}, 1⟩
    let conditions : List Condition := [⟨"id", none, .num (.int 1), none⟩]
    let turns := [.second, .second, .second, .first, .first, .first, .first, .second]
    let outcome := Dialogue.interleave Memory.receive turns
      (db.update "user" conditions [("name", .str "bob")]).run
      (db.update "user" conditions [("age", .num (.int 37))]).run { store }
    (∃ b b', outcome.1 = (.ok (some b), .ok (some b'))) ∧
      ∃ merged : Item,
        (∀ k, Fields.get? merged k =
          if k ∈ ["name"] then
            Fields.get? [("age", .num (.int 36)), ("id", .num (.int 1)), ("name", .str "bob")] k
          else if k ∈ ["age"] then
            Fields.get? [("age", .num (.int 37)), ("id", .num (.int 1)), ("name", .str "ada")] k
          else Fields.get? ada k) ∧
        (Fields.Ordered ada → Fields.Ordered merged) ∧
        ∀ name, outcome.2.store.items name =
          if user.table = name then (store.items name).map fun r => if r = ada then merged else r
          else store.items name := by
  intro user ada store db conditions turns
  have hnested : ∀ (age : Int) (name : String), Item.NestedOutside []
      [("age", .num (.int age)), ("id", .num (.int 1)), ("name", .str name)] := by
    intro age name k _ v hv
    have hmem := Fields.mem_of_get?_eq_some hv
    simp only [List.mem_cons, Prod.mk.injEq, List.not_mem_nil, or_false] at hmem
    obtain ⟨-, rfl⟩ | ⟨-, rfl⟩ | ⟨-, rfl⟩ := hmem
    · exact .num _
    · exact .num _
    · exact .str _
  have hs : (Schema.ofModels [user]).TablesApart := by
    unfold Schema.TablesApart
    decide +kernel
  have hstore : store.IsOf (.ofModels [user]) := (Memory.isOf_ofSchema _ _).seed _ _
  have hkeyed : store.WellKeyed := Memory.wellKeyed_of_forall (by decide +kernel)
  have hmodel : (Schema.ofModels [user]).model? "user" = some user := by decide +kernel
  have hrow : ada ∈ store.items user.table := by decide +kernel
  have hconditions : normalizeAll (Schema.ofModels [user]).resolver "user" conditions =
      .ok [⟨"id", .eq, .num (.int 1), .and, false⟩] := by decide +kernel
  have hfixes : FixesKey user.primaryKey [⟨"id", .eq, .num (.int 1), .and, false⟩] :=
    ⟨by simp [NormalizedCondition.isKeyEquality, Value.isNull], by simp,
      by simp [user, KeySchema.attributes]⟩
  have hmatches : matchesAll [⟨"id", .eq, .num (.int 1), .and, false⟩] ada = true := by decide +kernel
  have hfirst : ((db.update "user" conditions [("name", .str "bob")]).run.run Memory.receive
      { store }).1 =
        .ok (some [("age", .num (.int 36)), ("id", .num (.int 1)), ("name", .str "bob")]) := by
    decide +kernel
  have hsecond : ((db.update "user" conditions [("age", .num (.int 37))]).run.run Memory.receive
      { store }).1 =
        .ok (some [("age", .num (.int 37)), ("id", .num (.int 1)), ("name", .str "ada")]) := by
    decide +kernel
  have hnames : user.primaryKey.patchedNames ((Schema.ofModels [user]).resolver.physicalItem "user"
      [("name", .str "bob")]) = ["name"] := by decide +kernel
  have hnames' : user.primaryKey.patchedNames ((Schema.ofModels [user]).resolver.physicalItem "user"
      [("age", .num (.int 37))]) = ["age"] := by decide +kernel
  have hdb : db.resolver = (Schema.ofModels [user]).resolver := rfl
  have hend := Database.update_interleave hs (w := { store }) hstore hkeyed hdb hdb hmodel hrow
    hconditions hconditions hfixes hfixes hmatches hmatches
    (by rw [hnames, hnames']; simp) hfirst hsecond (hnested 36 "bob") (hnested 37 "ada") turns
  rw [hnames, hnames'] at hend
  exact hend

/-- One update gives user 1 a note that is nested in 65 lists, and another one renames her. Each of them
succeeds alone, but the second one finds the note too deep if the first one has come before. -/
theorem Database.not_update_interleave :
    let user : ModelDef := { name := "user", table := "users", primaryKey := { partition := "id" } }
    let store := (Memory.ofSchema (.ofModels [user]) none).seed "users"
      [.map [("id", .num (.int 1)), ("name", .str "ada")]]
    let db : Database := ⟨(Schema.ofModels [user]).resolver, {}, 1⟩
    let conditions : List Condition := [⟨"id", none, .num (.int 1), none⟩]
    let deep : Value := (fun v => .list [v])^[64] (.list [])
    let note := (db.update "user" conditions [("notes", deep)]).run
    let rename := (db.update "user" conditions [("name", .str "bob")]).run
    (note.run Memory.receive { store }).1 =
        .ok (some [("id", .num (.int 1)), ("name", .str "ada"), ("notes", deep)]) ∧
      (rename.run Memory.receive { store }).1 =
        .ok (some [("id", .num (.int 1)), ("name", .str "bob")]) ∧
      (Dialogue.interleave Memory.receive [] note rename { store }).1 =
        (.ok (some [("id", .num (.int 1)), ("name", .str "ada"), ("notes", deep)]),
          .error (.invalidUpdate "Update nesting exceeds 64 levels")) := by
  decide +kernel

end KeyedQuery
