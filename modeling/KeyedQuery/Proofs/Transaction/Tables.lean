import KeyedQuery.Proofs.Transaction.Overlay

/-!
# Rows set at places

`Place.set` stores a row at a place, or drops the one there. It leaves the keys of the tables and
all other rows alone (`Place.sameLayout_set`, `Place.stored?_set`), and tables whose rows a
transaction can tell apart stay so (`TablesKeyed.set`). Such tables with the same rows at all places hold
the same rows (`TablesKeyed.sameRows`).
-/

namespace KeyedQuery

/-! ## Layout -/

/-- Tables of the same names, keys and indexes. -/
def SameLayout (tables tables' : Fields Table) : Prop :=
  ∀ name, (Fields.get? tables name).map (fun t => (t.keys, t.indexes)) =
    (Fields.get? tables' name).map fun t => (t.keys, t.indexes)

/-- Tables of the same names, keys and indexes with the same rows, in any order. -/
def SameRows (tables tables' : Fields Table) : Prop :=
  ∀ name, Option.Rel (fun t u => t.keys = u.keys ∧ t.indexes = u.indexes ∧ t.items.Perm u.items)
    (Fields.get? tables name) (Fields.get? tables' name)

variable {tables tables' : Fields Table} {p q : Place} {item : Item} {row? : Option Item}
  {name : String} {t : Table} {f : Table → Table}

namespace SameLayout

theorem refl (tables : Fields Table) : SameLayout tables tables :=
  fun _ => rfl

theorem symm (h : SameLayout tables tables') : SameLayout tables' tables :=
  fun name => (h name).symm

theorem trans {tables'' : Fields Table} (h : SameLayout tables tables')
    (h' : SameLayout tables' tables'') : SameLayout tables tables'' :=
  fun name => (h name).trans (h' name)

theorem exists_table (h : SameLayout tables tables') (ht : Fields.get? tables name = some t) :
    ∃ u, Fields.get? tables' name = some u ∧ t.keys = u.keys ∧ t.indexes = u.indexes := by
  have hlayout := h name
  rw [ht, Option.map_some] at hlayout
  obtain ⟨u, hu, hpair⟩ := Option.map_eq_some_iff.mp hlayout.symm
  exact ⟨u, hu, (Prod.mk.inj hpair).1.symm, (Prod.mk.inj hpair).2.symm⟩

theorem hasKeyParts {u : Table} (hkeys : t.keys = u.keys) (h : t.HasKeyParts item) :
    u.HasKeyParts item :=
  fun a ha => h a (hkeys ▸ ha)

theorem isIn (h : SameLayout tables tables') (hp : p.IsIn tables) : p.IsIn tables' := by
  obtain ⟨t, ht, hkey, hparts⟩ := hp
  obtain ⟨u, hu, hkeys, -⟩ := h.exists_table ht
  exact ⟨u, hu, hkey.congr hkeys, hasKeyParts hkeys hparts⟩

theorem holds (h : SameLayout tables tables') (hp : p.Holds tables item) : p.Holds tables' item := by
  obtain ⟨t, ht, hparts, hkey⟩ := hp
  obtain ⟨u, hu, hkeys, -⟩ := h.exists_table ht
  exact ⟨u, hu, hasKeyParts hkeys hparts, (Table.keyOf_congr hkeys item).symm.trans hkey⟩

end SameLayout

/-- Tables of one layout with the same row at each place hold the same rows. -/
theorem TablesKeyed.sameRows (h : TablesKeyed tables) (h' : TablesKeyed tables')
    (hlayout : SameLayout tables tables')
    (hstored : ∀ p : Place, p.IsIn tables → p.stored? tables = p.stored? tables') :
    SameRows tables tables' := by
  intro name
  cases ht : Fields.get? tables name with
  | none =>
    have hnone := hlayout name
    rw [ht, Option.map_none] at hnone
    rw [Option.map_eq_none_iff.mp hnone.symm]
    exact .none
  | some t =>
    obtain ⟨u, hu, hkeys, hindexes⟩ := hlayout.exists_table ht
    rw [hu]
    refine .some ⟨hkeys, hindexes, ?_⟩
    have hmem : ∀ row, row ∈ t.items ↔ row ∈ u.items := by
      intro row
      constructor
      · intro hrow
        obtain ⟨p, rfl, hholds, hrow⟩ := h.exists_place ht hrow
        exact ((h'.stored?_eq_some_iff hu).mp
          ⟨hlayout.isIn hholds.isIn, (hstored p hholds.isIn).symm.trans hrow⟩).1
      · intro hrow
        obtain ⟨p, rfl, hholds, hrow⟩ := h'.exists_place hu hrow
        have hp := hlayout.symm.isIn hholds.isIn
        exact ((h.stored?_eq_some_iff ht).mp ⟨hp, (hstored p hp).trans hrow⟩).1
    exact (List.perm_ext_iff_of_nodup (h.wellKeyed name t ht).nodup
      (h'.wellKeyed name u hu).nodup).mpr hmem

/-! ## Setting rows -/

/-- The tables with one of them changed, if there is one of the name. -/
def changeTable (tables : Fields Table) (name : String) (f : Table → Table) : Fields Table :=
  match Fields.get? tables name with
  | some t => Fields.insert tables name (f t)
  | none => tables

theorem changeTable_eq (ht : Fields.get? tables name = some t) (f : Table → Table) :
    changeTable tables name f = Fields.insert tables name (f t) := by
  rw [changeTable, ht]

theorem get?_changeTable (tables : Fields Table) (name : String) (f : Table → Table)
    (other : String) : Fields.get? (changeTable tables name f) other =
      if name = other then (Fields.get? tables name).map f else Fields.get? tables other := by
  unfold changeTable
  split
  · rename_i t ht
    rw [Fields.get?_insert, ht, Option.map_some]
  · rename_i hnone
    split
    · rename_i hname
      rw [← hname, hnone, Option.map_none]
    · rfl

namespace Place

/-- The tables with a row stored at a place, or with the one there dropped. -/
def set (tables : Fields Table) (p : Place) : Option Item → Fields Table
  | some item => changeTable tables p.table fun t => t.upsert item
  | none => changeTable tables p.table fun t => t.remove p.key

theorem exists_set_eq (tables : Fields Table) (p : Place) (row? : Option Item) :
    ∃ f : Table → Table, p.set tables row? = changeTable tables p.table f ∧
      ∀ t, (f t).keys = t.keys ∧ (f t).indexes = t.indexes := by
  cases row? with
  | some item => exact ⟨_, rfl, fun t => ⟨t.upsert_keys item, t.upsert_indexes item⟩⟩
  | none => exact ⟨_, rfl, fun t => ⟨t.remove_keys p.key, t.remove_indexes p.key⟩⟩

theorem sameLayout_set (tables : Fields Table) (p : Place) (row? : Option Item) :
    SameLayout (p.set tables row?) tables := by
  obtain ⟨f, hset, hf⟩ := exists_set_eq tables p row?
  intro name
  rw [hset, get?_changeTable]
  split
  · rename_i hname
    rw [← hname]
    cases Fields.get? tables p.table with
    | none => rfl
    | some t => simp only [Option.map_some, hf t]
  · rfl

/-- At the place there is what was set, and other places keep their rows. -/
theorem stored?_set (h : TablesKeyed tables) (hp : p.IsIn tables)
    (hrow : ∀ item, row? = some item → p.Holds tables item) (hq : q.IsIn tables) :
    q.stored? (p.set tables row?) = if q = p then row? else q.stored? tables := by
  obtain ⟨t, ht, hkey, hparts⟩ := hp
  by_cases hname : p.table = q.table
  · obtain ⟨hqkey, hqparts⟩ := hq.isKey (hname ▸ ht)
    have heq : q = p ↔ p.key = q.key := by
      cases p
      cases q
      simp_all [eq_comm]
    cases row? with
    | some item =>
      have hholds := hrow item rfl
      obtain ⟨u, hu, hitem, -⟩ := hrow item rfl
      obtain rfl := Option.some.inj (hu.symm.trans ht)
      rw [set, stored?, get?_changeTable, if_pos hname, ht, Option.map_some, Option.bind_some,
        (h.wellKeyed _ u hu).find?_upsert hitem.carries hqkey, stored?_eq (hname ▸ ht)]
      simp only [hholds.hasKey_iff hu hqkey hqparts, heq]
    | none =>
      rw [set, stored?, get?_changeTable, if_pos hname, ht, Option.map_some, Option.bind_some,
        (h.wellKeyed _ t ht).find?_remove hkey hqkey, stored?_eq (hname ▸ ht)]
      simp only [Table.hasKey_iff hqparts hkey hparts, hqkey.keyOf_eq, heq, eq_comm]
  · obtain ⟨f, hset, -⟩ := exists_set_eq tables p row?
    have hne : q ≠ p := fun heq => hname (congrArg Place.table heq).symm
    rw [hset, stored?, get?_changeTable, if_neg hname, if_neg hne]
    rfl

end Place

/-- Rows that are set at places of their own can be told apart from the others. -/
theorem TablesKeyed.set (h : TablesKeyed tables) (hp : p.IsIn tables)
    (hrow : ∀ item, row? = some item → p.Holds tables item) : TablesKeyed (p.set tables row?) := by
  have htable : ∀ name u, Fields.get? (p.set tables row?) name = some u →
      (∃ t, Fields.get? tables name = some t) ∧ u.WellKeyed ∧ ∀ item ∈ u.items, u.HasKeyParts item := by
    intro name u hu
    obtain ⟨t, ht, hkey, hparts⟩ := hp
    by_cases hname : p.table = name
    · subst hname
      refine ⟨⟨t, ht⟩, ?_⟩
      have hwell := h.wellKeyed _ t ht
      have hold := h.hasKeyParts _ t ht
      cases row? with
      | some item =>
        obtain ⟨t', ht', hitem, -⟩ := hrow item rfl
        obtain rfl := Option.some.inj (ht'.symm.trans ht)
        rw [Place.set, get?_changeTable, if_pos rfl, ht'] at hu
        obtain rfl := Option.some.inj hu
        refine ⟨hwell.upsert hitem.carries, fun row hmem => ?_⟩
        refine SameLayout.hasKeyParts (t'.upsert_keys item).symm ?_
        rcases (hwell.mem_upsert hitem.carries).mp hmem with rfl | ⟨hmem, -⟩
        · exact hitem
        · exact hold row hmem
      | none =>
        rw [Place.set, get?_changeTable, if_pos rfl, ht] at hu
        obtain rfl := Option.some.inj hu
        refine ⟨hwell.remove hkey, fun row hmem => ?_⟩
        exact SameLayout.hasKeyParts (t.remove_keys p.key).symm
          (hold row ((hwell.mem_remove hkey).mp hmem).1)
    · obtain ⟨f, hset, -⟩ := Place.exists_set_eq tables p row?
      rw [hset, get?_changeTable, if_neg hname] at hu
      exact ⟨⟨u, hu⟩, h.wellKeyed name u hu, h.hasKeyParts name u hu⟩
  refine ⟨fun name u hu => ?_, fun name u hu => (htable name u hu).2.1,
    fun name u hu => (htable name u hu).2.2⟩
  obtain ⟨⟨t, ht⟩, -⟩ := htable name u hu
  exact h.slashFree name t ht

end KeyedQuery
