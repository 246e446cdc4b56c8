import KeyedQuery.Proofs.Store.Keys
import KeyedQuery.Store.Memory

/-!
# Stores of a schema

A memory is one of a schema if its tables are those of a fresh one, with any rows (`Memory.IsOf`). If
different models have different tables, each model's table has the model's keys and its indexes
(`Memory.IsOf.exists_table`).
-/

namespace KeyedQuery

/-- Different models have different tables. -/
def Schema.TablesApart (s : Schema) : Prop :=
  s.definitions.Pairwise fun d e => d.table ≠ e.table

/-- The table has the keys and the indexes of a model. -/
structure Table.IsOf (t : Table) (d : ModelDef) : Prop where
  keys_eq : t.keys = d.primaryKey
  indexes_eq : t.indexes = Fields.ofList (d.indexes.map fun index => (index.name, index.keys))

namespace Memory

/-- The memory's tables are those of a fresh memory of the schema, with any rows, and its pages can
look at rows. -/
structure IsOf (s : Schema) (m : Memory) : Prop where
  layout : ∀ name, (Fields.get? m.tables name).map (fun t => (t.keys, t.indexes)) =
    (Fields.get? (ofSchema s none).tables name).map fun t => (t.keys, t.indexes)
  pageSize_ne : m.pageSize ≠ some 0

/-- Every row of every table carries its key, and the rows of a table have different keys. -/
def WellKeyed (m : Memory) : Prop :=
  ∀ name t, Fields.get? m.tables name = some t → t.WellKeyed

theorem wellKeyed_of_forall {m : Memory} (h : ∀ field ∈ m.tables, field.2.WellKeyed) : m.WellKeyed :=
  fun name t ht => h (name, t) (Fields.mem_of_get?_eq_some ht)

theorem mem_items_iff {m : Memory} {name : String} {item : Item} :
    item ∈ m.items name ↔ ∃ t, Fields.get? m.tables name = some t ∧ item ∈ t.items := by
  unfold items
  cases Fields.get? m.tables name <;> simp

theorem items_of_forall {m : Memory} {P : Item → Prop}
    (h : ∀ field ∈ m.tables, ∀ item ∈ field.2.items, P item) (name : String) :
    ∀ item ∈ m.items name, P item := by
  intro item hitem
  obtain ⟨t, ht, hmem⟩ := mem_items_iff.mp hitem
  exact h (name, t) (Fields.mem_of_get?_eq_some ht) item hmem

/-- No failures have been scripted. -/
structure IsCalm (m : Memory) : Prop where
  failures_eq : m.failures = []
  rounds_eq : m.unprocessedRounds = 0

/-- A fresh table for a model. -/
def addModel (m : Memory) (d : ModelDef) : Memory :=
  m.createTable d.table d.primaryKey (d.indexes.map fun index => (index.name, index.keys))

theorem get?_addModel (m : Memory) (d : ModelDef) : ∃ t, t.IsOf d ∧ ∀ name,
    Fields.get? (m.addModel d).tables name =
      if d.table = name then some t else Fields.get? m.tables name :=
  ⟨_, ⟨rfl, rfl⟩, fun name => Fields.get?_insert _ _ _ name⟩

theorem get?_foldl_addModel (ds : List ModelDef) : ∀ m : Memory,
    (∀ name, name ∉ ds.map ModelDef.table →
        Fields.get? (ds.foldl addModel m).tables name = Fields.get? m.tables name) ∧
      (ds.Pairwise (fun d e => d.table ≠ e.table) → ∀ d ∈ ds, ∃ t, t.IsOf d ∧
        Fields.get? (ds.foldl addModel m).tables d.table = some t) := by
  induction ds with
  | nil => simp
  | cons d ds ih =>
    intro m
    obtain ⟨hothers, htables⟩ := ih (m.addModel d)
    obtain ⟨t, ht, hget⟩ := m.get?_addModel d
    constructor
    · intro name hname
      rw [List.map_cons, List.mem_cons, not_or] at hname
      rw [List.foldl_cons, hothers name hname.2, hget, if_neg (Ne.symm hname.1)]
    · intro hapart e he
      obtain ⟨hd, hrest⟩ := List.pairwise_cons.mp hapart
      rcases List.mem_cons.mp he with rfl | he
      · refine ⟨t, ht, ?_⟩
        rw [List.foldl_cons, hothers _ ?_, hget, if_pos rfl]
        intro hmem
        obtain ⟨f, hf, hfe⟩ := List.mem_map.mp hmem
        exact hd f hf hfe.symm
      · exact htables hrest e he

theorem mem_definitions {s : Schema} {model : String} {d : ModelDef} (h : s.model? model = some d) :
    d ∈ s.definitions :=
  List.mem_map.mpr ⟨(model, d), Fields.mem_of_get?_eq_some h, rfl⟩

/-- The table of a model has the model's keys and indexes. -/
theorem IsOf.exists_table_of_mem {s : Schema} {m : Memory} (h : m.IsOf s) (hs : s.TablesApart)
    {d : ModelDef} (hd : d ∈ s.definitions) :
    ∃ t, Fields.get? m.tables d.table = some t ∧ t.IsOf d := by
  obtain ⟨fresh, hfresh, hget⟩ := (get?_foldl_addModel s.definitions
    { pageSize := (none : Option Nat).map fun n => max n 1 }).2 hs d hd
  have hlayout := h.layout d.table
  have hof : Fields.get? (ofSchema s none).tables d.table = some fresh := hget
  rw [hof, Option.map_some] at hlayout
  obtain ⟨t, ht, hpair⟩ := Option.map_eq_some_iff.mp hlayout
  obtain ⟨hkeys, hindexes⟩ := Prod.mk.inj hpair
  exact ⟨t, ht, hkeys.trans hfresh.keys_eq, hindexes.trans hfresh.indexes_eq⟩

theorem IsOf.exists_table {s : Schema} {m : Memory} (h : m.IsOf s) (hs : s.TablesApart)
    {model : String} {d : ModelDef} (hd : s.model? model = some d) :
    ∃ t, Fields.get? m.tables d.table = some t ∧ t.IsOf d :=
  h.exists_table_of_mem hs (mem_definitions hd)

/-- Every table is that of a model. -/
theorem IsOf.exists_definition {s : Schema} {m : Memory} (h : m.IsOf s) (hs : s.TablesApart)
    {name : String} {t : Table} (ht : Fields.get? m.tables name = some t) :
    ∃ d ∈ s.definitions, d.table = name ∧ t.IsOf d := by
  have hname : name ∈ s.definitions.map ModelDef.table := by
    by_contra hnot
    have hlayout := h.layout name
    have hnone : Fields.get? (ofSchema s none).tables name = none :=
      ((get?_foldl_addModel s.definitions _).1 name hnot).trans rfl
    rw [hnone, ht] at hlayout
    cases hlayout
  obtain ⟨d, hd, rfl⟩ := List.mem_map.mp hname
  obtain ⟨u, hu, hof⟩ := h.exists_table_of_mem hs hd
  obtain rfl := Option.some.inj (hu.symm.trans ht)
  exact ⟨d, hd, rfl, hof⟩

/-- A fresh memory of a schema is one of it, whatever its page size. -/
theorem isOf_ofSchema (s : Schema) (pageSize : Option Nat) : (ofSchema s pageSize).IsOf s := by
  have hpageSize : ∀ (ds : List ModelDef) (m : Memory),
      (ds.foldl addModel m).pageSize = m.pageSize := by
    intro ds
    induction ds with
    | nil => exact fun _ => rfl
    | cons d ds ih => exact fun m => ih (m.addModel d)
  have htables : ∀ (ds : List ModelDef) (m m' : Memory), m.tables = m'.tables →
      (ds.foldl addModel m).tables = (ds.foldl addModel m').tables := by
    intro ds
    induction ds with
    | nil => exact fun _ _ h => h
    | cons d ds ih =>
      refine fun m m' h => ih _ _ ?_
      simp only [addModel, createTable, h]
  refine ⟨fun name => ?_, ?_⟩
  · have heq : (ofSchema s pageSize).tables = (ofSchema s none).tables :=
      htables s.definitions _ _ rfl
    rw [heq]
  · have heq : (ofSchema s pageSize).pageSize = pageSize.map fun n => max n 1 :=
      hpageSize s.definitions _
    rw [heq]
    cases pageSize with
    | none => simp
    | some n =>
      simp only [Option.map_some, ne_eq, Option.some.injEq]
      omega

end Memory

end KeyedQuery
