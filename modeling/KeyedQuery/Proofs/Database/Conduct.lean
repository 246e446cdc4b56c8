import KeyedQuery.Proofs.Conduct
import KeyedQuery.Proofs.Patch.Attributes
import KeyedQuery.Proofs.Plan.Sources
import KeyedQuery.Proofs.Store.Frame
import KeyedQuery.Proofs.Transaction.Invariants

/-!
# What databases write

Whatever the store answers, `Database.create`, `Database.update` and `Database.delete` send only writes that
name full keys of the model's table and that leave every row its key (`Database.asks_create_accepted`,
`Database.asks_update_accepted`, `Database.asks_delete_accepted`).
-/

namespace KeyedQuery

variable {tables : Fields Table} {t : Table} {key : Item}

namespace Write

variable {keys : KeySchema} {w : Write}

theorem revise_of_isUpdate_eq_false (h : w.isUpdate = false) (item : Item) : w.revise item = .ok item := by
  cases w with
  | update table key expression attributes => cases h
  | put _ _ | delete _ _ => rfl

/-- Putting or deleting a row changes the key of none. -/
theorem keepsKey_of_isUpdate_eq_false (h : w.isUpdate = false) : w.KeepsKey keys := by
  intro item next hnext
  obtain rfl := Except.ok.inj ((revise_of_isUpdate_eq_false h item).symm.trans hnext)
  exact fun _ _ => rfl

/-- An update by the difference of two rows with one key changes the key of none. -/
theorem keepsKey_of_between {current next : Item} {change : Patch} {name : String}
    (hchange : Patch.between current next = .ok change) (h : next.SameOn keys.attributes current) :
    Write.KeepsKey keys (.update name key change.expression change.attributes) :=
  fun _ _ hupdate a ha => Patch.get?_update hchange (h a ha) hupdate

end Write

/-- The table accepts all writes of the request. -/
def Fields.Admits (tables : Fields Table) (r : Request) : Prop :=
  ∀ w ∈ r.writes, tables.Accepts w

namespace Fields

theorem admits_of_reads {r : Request} (hr : r.Reads) : tables.Admits r := by
  cases r with
  | page q => exact fun w hw => absurd hw List.not_mem_nil
  | batchGet name keys => exact fun w hw => absurd hw List.not_mem_nil
  | transact _ _ | put _ _ | update _ _ _ _ _ | delete _ _ => cases hr

/-- Putting or deleting a row of a full key is accepted. -/
theorem accepts_of_isUpdate_eq_false {w : Write} (ht : get? tables w.table = some t)
    (hin : t.keys.IsIn w.row) (hkey : w.isPut = false → t.IsKey w.row)
    (hupdate : w.isUpdate = false) : tables.Accepts w := by
  refine ⟨t, ht, ⟨hin, hkey, fun item next hitem h => ?_⟩,
    fun _ => Write.keepsKey_of_isUpdate_eq_false hupdate⟩
  obtain rfl := Except.ok.inj ((Write.revise_of_isUpdate_eq_false hupdate item).symm.trans h)
  exact hitem

/-- An update of a row of a full key by the difference to a row with full key is accepted, if the two
rows do not differ in their keys. That is asked for solitary tables only. -/
theorem accepts_update {name : String} (ht : get? tables name = some t) (hin : t.keys.IsIn key)
    (hkey : t.IsKey key) {current next : Item} {change : Patch}
    (hchange : Patch.between current next = .ok change)
    (hnext : t.keys.IsIn next ∨ next.SameOn t.keys.attributes current)
    (hsame : tables.Solitary name → next.SameOn t.keys.attributes current) :
    tables.Accepts (.update name key change.expression change.attributes) := by
  refine ⟨t, ht, ⟨hin, fun _ => hkey, fun row row' hrow hupdate a ha => ?_⟩,
    fun hsolitary => Write.keepsKey_of_between hchange (hsame hsolitary)⟩
  rcases hnext with hnext | hnext
  · exact Patch.isMissing_update hchange (hnext a ha) (hrow a ha) hupdate
  · rw [Patch.get?_update hchange (hnext a ha) hupdate]
    exact hrow a ha

end Fields

theorem Table.isIn_of_rowKey_eq_ok {model : String} {item : Item}
    (h : Database.rowKey model t.keys item = .ok key) : t.keys.IsIn key ∧ t.IsKey key := by
  obtain ⟨rfl, hin⟩ := keyOf_eq_ok_iff.mp (of_mapError_eq_ok h)
  exact ⟨isIn_keyOf hin, isKey_keyOf (carries_of_isIn hin)⟩

namespace Database

variable {db : Database} {model : String} {conditions : List Condition}

/-- A new row is accepted by its table. -/
theorem accepts_newRow (hkeys : db.KeysIn tables) {table : String} {data item : Item}
    (hrow : db.newRow model data = .ok (table, key, item)) :
    tables.Accepts (.put table item) := by
  obtain ⟨htable, keys, hprimary, hkey, -⟩ := newRow_eq_ok hrow
  obtain ⟨t, ht, rfl⟩ := hkeys model table keys htable hprimary
  obtain ⟨-, hin⟩ := Table.keyOf_eq_ok_iff.mp (of_mapError_eq_ok hkey)
  exact Fields.accepts_of_isUpdate_eq_false (w := .put table item) ht hin nofun rfl

/-- Values that are put over a row leave its key alone. -/
theorem sameOn_patchedRow {keys : KeySchema} (hkeys : t.keys = keys) (row patch : Item) :
    (db.patchedRow model keys row patch).SameOn t.keys.attributes row := by
  intro a ha
  rw [patchedRow, ← hkeys, Table.get?_patched ha]

theorem asks_write_admitted {r : Request} (h : tables.Admits r) :
    Run.Asks tables.Admits (db.write r) :=
  (Run.Asks.request _ h).bind fun _ => (Run.Asks.count _ _).bind fun _ => .pure _

theorem asks_findOne_admitted (q : FindQuery) : Run.Asks tables.Admits (db.findOne q) :=
  (asks_findOne_reads q).mono fun _ => Fields.admits_of_reads

theorem asks_create_accepted (hkeys : db.KeysIn tables) (model : String) (data : Item) :
    Run.Asks tables.Admits (db.create model data) := by
  refine Run.Asks.ofExcept_bind fun place hplace => ?_
  refine (asks_write_admitted fun w hw => ?_).bind fun _ => .pure _
  obtain rfl := List.mem_singleton.mp hw
  exact accepts_newRow hkeys hplace

theorem asks_update_accepted (hkeys : db.KeysIn tables) (model : String)
    (conditions : List Condition) (patch : Item) :
    Run.Asks tables.Admits (db.update model conditions patch) := by
  refine (asks_findOne_admitted _).bind fun found => ?_
  cases found with
  | none => exact .pure _
  | some current =>
    refine Run.Asks.ofExcept_bind fun table htable => .ofExcept_bind fun keys hprimary =>
      .ofExcept_bind fun key hkey => .ofExcept_bind fun change hchange => ?_
    refine (asks_write_admitted fun w hw => ?_).bind fun _ => .pure _
    obtain rfl := List.mem_singleton.mp hw
    obtain ⟨t, ht, rfl⟩ := hkeys model table keys htable hprimary
    obtain ⟨hin, hisKey⟩ := Table.isIn_of_rowKey_eq_ok hkey
    have hsame : (db.patchedRow model t.keys current patch).SameOn t.keys.attributes current :=
      sameOn_patchedRow rfl current patch
    exact Fields.accepts_update ht hin hisKey (of_mapError_eq_ok hchange) (.inr hsame)
      fun _ => hsame

theorem asks_delete_accepted (hkeys : db.KeysIn tables) (model : String)
    (conditions : List Condition) : Run.Asks tables.Admits (db.delete model conditions) := by
  refine ((asks_findMany_reads _).mono fun _ => Fields.admits_of_reads).bind fun rows => ?_
  refine Run.Asks.ofExcept_bind fun table htable => .ofExcept_bind fun keys hprimary => ?_
  refine Run.Asks.bind ?_ fun _ => .pure _
  obtain ⟨t, ht, rfl⟩ := hkeys model table keys htable hprimary
  induction rows with
  | nil => exact .pure _
  | cons row rest ih =>
    refine .ofExcept_bind fun key hkey => (asks_write_admitted fun w hw => ?_).bind fun _ => ih
    obtain rfl := List.mem_singleton.mp hw
    obtain ⟨hin, hisKey⟩ := Table.isIn_of_rowKey_eq_ok hkey
    exact Fields.accepts_of_isUpdate_eq_false (w := .delete table key) ht hin (fun _ => hisKey) rfl

end Database

end KeyedQuery
