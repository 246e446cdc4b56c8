import KeyedQuery.Proofs.Transaction.Buffer

/-!
# What a transaction sees

`Transaction.rowAt` is the row at a place as a transaction leaves it: the row that it puts there, the
row as its buffered update will make it, none if it drops it, and the stored row otherwise. A transaction is
in step with the tables if its two records agree (`Transaction.Tracks`): there is a staged row exactly
for each buffered update, and the update is the patch from the stored row to it. Staging a write
keeps them in step and changes the row at its place only (`Transaction.Tracks.stage`,
`Transaction.Tracks.rowAt_stage`).
-/

namespace KeyedQuery

/-! ## Stored rows -/

/-- Tables whose rows have different keys, of values that a transaction can tell apart. -/
structure TablesKeyed (tables : Fields Table) : Prop where
  slashFree : ∀ name t, Fields.get? tables name = some t → IsSlashFree name
  wellKeyed : ∀ name t, Fields.get? tables name = some t → t.WellKeyed
  hasKeyParts : ∀ name t, Fields.get? tables name = some t → ∀ item ∈ t.items, t.HasKeyParts item

namespace Place

variable {tables : Fields Table} {t : Table} {p : Place} {item : Item}

/-- The row that is stored at a place. -/
def stored? (tables : Fields Table) (p : Place) : Option Item :=
  (Fields.get? tables p.table).bind fun t => t.find? p.key

/-- The row has its key at the place. -/
def Holds (tables : Fields Table) (p : Place) (item : Item) : Prop :=
  ∃ t, Fields.get? tables p.table = some t ∧ t.HasKeyParts item ∧ t.keyOf item = p.key

theorem stored?_eq (ht : Fields.get? tables p.table = some t) :
    p.stored? tables = t.find? p.key := by
  rw [stored?, ht]
  rfl

theorem Holds.isIn (h : p.Holds tables item) : p.IsIn tables := by
  obtain ⟨t, ht, hparts, hkey⟩ := h
  exact ⟨t, ht, hkey ▸ Table.isKey_keyOf hparts.carries, hkey ▸ hparts.keyOf⟩

/-- A row is at one place of a table. -/
theorem Holds.eq_of_table_eq {q : Place} (h : p.Holds tables item) (h' : q.Holds tables item)
    (htable : p.table = q.table) : p = q := by
  obtain ⟨t, ht, -, hkey⟩ := h
  obtain ⟨u, hu, -, hkey'⟩ := h'
  obtain rfl := Option.some.inj ((htable ▸ ht).symm.trans hu)
  cases p
  cases q
  simp_all

theorem Holds.hasKey_iff {key : Item} (h : p.Holds tables item)
    (ht : Fields.get? tables p.table = some t) (hkey : t.IsKey key) (hparts : t.HasKeyParts key) :
    item.hasKey key = true ↔ p.key = key := by
  obtain ⟨u, hu, hitem, hp⟩ := h
  obtain rfl := Option.some.inj (hu.symm.trans ht)
  rw [Table.hasKey_iff hitem hkey hparts, hp]

end Place

namespace TablesKeyed

variable {tables : Fields Table} {t : Table} {p : Place} {item : Item} {name : String}

theorem of_forall (h : ∀ field ∈ tables, IsSlashFree field.1 ∧ field.2.WellKeyed ∧
    ∀ item ∈ field.2.items, field.2.HasKeyParts item) : TablesKeyed tables where
  slashFree name t ht := (h (name, t) (Fields.mem_of_get?_eq_some ht)).1
  wellKeyed name t ht := (h (name, t) (Fields.mem_of_get?_eq_some ht)).2.1
  hasKeyParts name t ht := (h (name, t) (Fields.mem_of_get?_eq_some ht)).2.2

theorem isSlashFree (h : TablesKeyed tables) (hp : p.IsIn tables) : IsSlashFree p.table := by
  obtain ⟨t, ht, -⟩ := hp
  exact h.slashFree p.table t ht

/-- The rows of a table are those stored at its places. -/
theorem stored?_eq_some_iff (h : TablesKeyed tables) (ht : Fields.get? tables p.table = some t) :
    p.IsIn tables ∧ p.stored? tables = some item ↔ item ∈ t.items ∧ p.Holds tables item := by
  rw [Place.stored?_eq ht]
  constructor
  · rintro ⟨hp, hfind⟩
    obtain ⟨hkey, hparts⟩ := hp.isKey ht
    obtain ⟨hmem, hhas⟩ := ((h.wellKeyed _ t ht).find?_eq_some_iff hkey).mp hfind
    have hitem := h.hasKeyParts _ t ht item hmem
    exact ⟨hmem, t, ht, hitem, (Table.hasKey_iff hitem hkey hparts).mp hhas⟩
  · rintro ⟨hmem, hholds⟩
    obtain ⟨hkey, hparts⟩ := hholds.isIn.isKey ht
    exact ⟨hholds.isIn, ((h.wellKeyed _ t ht).find?_eq_some_iff hkey).mpr
      ⟨hmem, (hholds.hasKey_iff ht hkey hparts).mpr rfl⟩⟩

theorem holds_of_stored? (h : TablesKeyed tables) (hp : p.IsIn tables)
    (hstored : p.stored? tables = some item) : p.Holds tables item := by
  obtain ⟨t, ht, -⟩ := id hp
  exact ((h.stored?_eq_some_iff ht).mp ⟨hp, hstored⟩).2

/-- Every row of a table is stored at the place of its key. -/
theorem exists_place (h : TablesKeyed tables) (ht : Fields.get? tables name = some t)
    (hmem : item ∈ t.items) : ∃ p : Place, p.table = name ∧ p.Holds tables item ∧
      p.stored? tables = some item := by
  have hholds : Place.Holds tables ⟨name, t.keyOf item⟩ item :=
    ⟨t, ht, h.hasKeyParts name t ht item hmem, rfl⟩
  exact ⟨⟨name, t.keyOf item⟩, rfl, hholds,
    ((h.stored?_eq_some_iff (p := ⟨name, t.keyOf item⟩) ht).mpr ⟨hmem, hholds⟩).2⟩

end TablesKeyed

/-! ## Rows as a transaction leaves them -/

/-- The staged row of an update to a place: what is stored there, what will be, and that the update is
the patch between them. -/
structure StagedUpdate.Stands (tables : Fields Table) (p : Place) (patch : Patch)
    (u : StagedUpdate) : Prop where
  table_eq : u.table = p.table
  stored : p.stored? tables = some u.current
  holds : p.Holds tables u.next
  between : Patch.between u.current u.next = .ok patch

namespace Transaction

variable {tables : Fields Table} {tx : Transaction} {t : Table} {p q : Place} {w : Write}
  {b : WriteBuffer} {updates : Fields StagedUpdate}

/-- The row that a write leaves at its place. -/
def rowAfter (updates : Fields StagedUpdate) (p : Place) : Write → Option Item
  | .put _ item => some item
  | .update _ _ _ _ => (Fields.get? updates p.id).map StagedUpdate.next
  | .delete _ _ => none

/-- The row at a place as the transaction leaves it. -/
def rowAt (tables : Fields Table) (tx : Transaction) (p : Place) : Option Item :=
  match tx.buffer.write? p with
  | some w => rowAfter tx.updates p w
  | none => p.stored? tables

theorem rowAt_of_write? (h : tx.buffer.write? p = some w) :
    tx.rowAt tables p = rowAfter tx.updates p w := by
  rw [rowAt, h]

theorem rowAt_of_unwritten (h : tx.buffer.write? p = none) :
    tx.rowAt tables p = p.stored? tables := by
  rw [rowAt, h]

/-- The record of staged rows has what belongs to a write to a place: the staged row of an update, and
nothing for every other write or for none. -/
def Agrees (tables : Fields Table) (updates : Fields StagedUpdate) (p : Place) :
    Option Write → Prop
  | some (.update _ _ expression attributes) =>
    ∃ u, Fields.get? updates p.id = some u ∧ u.Stands tables p ⟨expression, attributes⟩
  | some (.put _ _) | some (.delete _ _) | none => Fields.get? updates p.id = none

/-- A staged row belongs to an update. -/
theorem Agrees.exists_update {write? : Option Write} (h : Agrees tables updates p write?)
    {u : StagedUpdate} (hu : Fields.get? updates p.id = some u) :
    ∃ name key expression attributes, write? = some (.update name key expression attributes) := by
  unfold Agrees at h
  split at h
  · exact ⟨_, _, _, _, rfl⟩
  all_goals
    rw [h] at hu
    cases hu

/-- The transaction's records agree with each other and with the tables. -/
structure Tracks (tables : Fields Table) (tx : Transaction) : Prop where
  sound : tx.buffer.Sound tables
  agrees : ∀ p : Place, p.IsIn tables → Agrees tables tx.updates p (tx.buffer.write? p)
  ordered : Fields.Ordered tx.updates
  exists_place : ∀ field ∈ tx.updates, ∃ p : Place, p.IsIn tables ∧ field.1 = p.id ∧
    field.2.table = p.table

theorem tracks_empty (tables : Fields Table) : Tracks tables {} where
  sound := ⟨rfl, Nat.zero_le _, by simp, by simp⟩
  agrees _ _ := rfl
  ordered := Fields.ordered_nil
  exists_place := by simp

namespace Tracks

/-- The row that is left at a place has its key there. -/
theorem holds_rowAt (h : Tracks tables tx) (htables : TablesKeyed tables) (hp : p.IsIn tables)
    {item : Item} (hrow : tx.rowAt tables p = some item) : p.Holds tables item := by
  have hagrees := h.agrees p hp
  unfold rowAt at hrow
  cases hwrite : tx.buffer.write? p with
  | none =>
    rw [hwrite] at hrow
    exact htables.holds_of_stored? hp hrow
  | some w =>
    rw [hwrite] at hrow hagrees
    dsimp only at hrow
    cases w with
    | put name row =>
      obtain rfl := Option.some.inj hrow
      obtain ⟨hmem, hplace⟩ := (h.sound.write?_eq_some_iff hp).mp hwrite
      obtain ⟨t, ht, hparts, -⟩ := h.sound.fits _ hmem
      subst hplace
      rw [Write.place_eq ht]
      exact ⟨t, ht, hparts, rfl⟩
    | update name key expression attributes =>
      obtain ⟨u, hu, hstands⟩ := hagrees
      simp only [rowAfter, hu] at hrow
      obtain rfl := Option.some.inj hrow
      exact hstands.holds
    | delete name key => cases hrow

/-! ## Staging -/

/-- Staging a write keeps the records in step if the record of staged rows is changed with it. -/
theorem stage (h : Tracks tables tx) (hw : w.Fits tables) (hplace : w.place tables = p)
    (hstage : tx.buffer.stage w p.key = .ok b)
    (hhere : Agrees tables updates p (some w))
    (hothers : ∀ q : Place, q.IsIn tables → q ≠ p →
      Fields.get? updates q.id = Fields.get? tx.updates q.id)
    (hordered : Fields.Ordered updates)
    (hexists : ∀ field ∈ updates, ∃ p : Place, p.IsIn tables ∧ field.1 = p.id ∧
      field.2.table = p.table) : Tracks tables ⟨b, updates⟩ where
  sound := h.sound.stage hw (hplace ▸ rfl) hstage
  agrees q hq := by
    dsimp only
    rw [h.sound.write?_stage hw (hplace ▸ rfl) hstage hq, hplace]
    split
    · rename_i heq
      exact heq ▸ hhere
    · rename_i hne
      have hagrees := h.agrees q hq
      unfold Agrees at hagrees ⊢
      rw [hothers q hq hne]
      exact hagrees
  ordered := hordered
  exists_place := hexists

/-- A staged write changes the row at its place and no other. -/
theorem rowAt_stage (h : Tracks tables tx) (hw : w.Fits tables) (hplace : w.place tables = p)
    (hstage : tx.buffer.stage w p.key = .ok b)
    (hothers : ∀ q : Place, q.IsIn tables → q ≠ p →
      Fields.get? updates q.id = Fields.get? tx.updates q.id)
    (hq : q.IsIn tables) : rowAt tables ⟨b, updates⟩ q =
      if q = p then rowAfter updates p w else tx.rowAt tables q := by
  unfold rowAt
  dsimp only
  rw [h.sound.write?_stage hw (hplace ▸ rfl) hstage hq, hplace]
  by_cases heq : q = p
  · rw [if_pos heq, if_pos heq, heq]
  · rw [if_neg heq, if_neg heq]
    cases tx.buffer.write? q with
    | none => rfl
    | some v => cases v <;> simp only [rowAfter, hothers q hq heq]

theorem get?_erase_of_ne (htables : TablesKeyed tables) (updates : Fields StagedUpdate)
    (hp : p.IsIn tables) (hq : q.IsIn tables) (hne : q ≠ p) :
    Fields.get? (Fields.erase updates p.id) q.id = Fields.get? updates q.id := by
  rw [Fields.get?_erase, if_neg]
  exact fun heq => hne (hq.eq_of_id_eq hp (htables.isSlashFree hq) (htables.isSlashFree hp) heq.symm)

theorem get?_insert_of_ne (htables : TablesKeyed tables) (updates : Fields StagedUpdate)
    (u : StagedUpdate) (hp : p.IsIn tables) (hq : q.IsIn tables) (hne : q ≠ p) :
    Fields.get? (Fields.insert updates p.id u) q.id = Fields.get? updates q.id := by
  rw [Fields.get?_insert, if_neg]
  exact fun heq => hne (hq.eq_of_id_eq hp (htables.isSlashFree hq) (htables.isSlashFree hp) heq.symm)

end Tracks

end Transaction

end KeyedQuery
