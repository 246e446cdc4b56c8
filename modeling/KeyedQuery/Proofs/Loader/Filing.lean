import KeyedQuery.Proofs.Loader.Progress

/-!
# What loads are filed for

`Database.endOf` says what a load ends with in a calm store: the row whose own key is the one asked for,
or a fault if no key can be told from what it asks for. A loader files each load under its key
(`Loader.Files`), and a batch that is fetched gives the loads that are filed in it just these outcomes
(`Loader.Files.fetches`). Nobody is lost on the way (`Loader.holds_of_fetches`).
-/

namespace KeyedQuery

variable {db : Database} {tables : Fields Table} {loads : List Load} {model : String} {key : Item}
  {asked : LoadKey} {load : Load} {i : Nat}

namespace Database

/-- What a load ends with if the store has these tables. -/
def endOf (db : Database) (tables : Fields Table) (load : Load) : LoadOutcome := do
  let key ← db.loadKey load.model load.asked
  let table ← db.resolver.table load.model
  .ok ((Fields.get? tables table).bind (·.own? key))

theorem endOf_eq_error {fault : Fault} (h : db.loadKey load.model load.asked = .error fault) :
    db.endOf tables load = .error fault := by
  rw [endOf, h]
  rfl

/-- The key that a load waits for is a key of the model's table, with a value for each attribute. -/
theorem LiesOn.of_loadKey {t : Table} (hlies : db.LiesOn model tables t)
    (h : db.loadKey model asked = .ok key) : t.IsKey key ∧ t.keys.IsIn key := by
  unfold loadKey at h
  rw [hlies.primaryKey] at h
  obtain ⟨keys, hkeys, h⟩ := exists_of_bind_eq_ok h
  obtain rfl := Except.ok.inj hkeys
  obtain ⟨_, -, h⟩ := exists_of_bind_eq_ok h
  obtain ⟨rfl, hin⟩ := Table.keyOf_eq_ok_iff.mp (of_mapError_eq_ok h)
  refine ⟨Table.isKey_keyOf (Table.carries_of_isIn hin), fun a ha => ?_⟩
  rw [Table.get?_keyOf, if_pos ha]
  exact hin a ha

theorem exists_table_of_loadKey (h : db.loadKey model asked = .ok key) :
    ∃ table, db.resolver.table model = .ok table := by
  unfold loadKey at h
  obtain ⟨_, -, h⟩ := exists_of_bind_eq_ok h
  obtain ⟨table, htable, -⟩ := exists_of_bind_eq_ok h
  exact ⟨table, htable⟩

theorem LiesOn.endOf_eq {t : Table} (hlies : db.LiesOn load.model tables t)
    (h : db.loadKey load.model load.asked = .ok key) : db.endOf tables load = .ok (t.own? key) := by
  obtain ⟨table, htable, ht⟩ := hlies.exists_table
  simp only [endOf, h, htable, ht, bind, Except.bind, Option.bind_some]

end Database

/-- The batch has loads of its model under the keys that they wait for. -/
structure LoadBatch.IsFiled (db : Database) (loads : List Load) (batch : LoadBatch) : Prop where
  exists_table : ∃ table, db.resolver.table batch.model = .ok table
  id_eq : ∀ e ∈ batch.entries, e.id = LoadEntry.idOf e.key
  waiters : ∀ e ∈ batch.entries, ∀ i ∈ e.waiters, ∃ load, loads[i]? = some load ∧
    load.model = batch.model ∧ db.loadKey load.model load.asked = .ok e.key

/-- The loader has every load where its row is going to be, and every outcome is the right one. -/
structure Loader.Files (db : Database) (tables : Fields Table) (loads : List Load) (l : Loader) :
    Prop where
  ordered : l.pending.Ordered
  filed : ∀ batch ∈ l.pendingBatches, batch.IsFiled db loads
  ends : ∀ i outcome, l.outcome? i = some outcome → ∃ load, loads[i]? = some load ∧
    outcome = db.endOf tables load

/-- The loader has the load waiting, or its outcome is known. -/
def Loader.Has (l : Loader) (i : Nat) : Prop :=
  i ∈ l.pendingBatches.flatMap LoadBatch.waiters ∨ (l.outcome? i).isSome

namespace Loader

variable {l next : Loader}

theorem mem_pendingBatches {entries : List LoadEntry}
    (h : Fields.get? l.pending model = some entries) : ⟨model, entries⟩ ∈ l.pendingBatches :=
  List.mem_map_of_mem (f := fun field => (⟨field.1, field.2⟩ : LoadBatch))
    (Fields.mem_of_get?_eq_some h)

theorem isSome_pending {batch : LoadBatch} (h : batch ∈ l.pendingBatches) :
    (Fields.get? l.pending batch.model).isSome := by
  obtain ⟨field, hfield, rfl⟩ := List.mem_map.mp h
  exact Fields.isSome_get?_iff.mpr (Fields.mem_names_of_mem hfield)

/-! ## Outcomes -/

/-- An outcome is an earlier one or a new one. -/
theorem outcome?_of_append {more : List (Nat × LoadOutcome)}
    (h : next.outcomes = l.outcomes ++ more) (i : Nat) :
    next.outcome? i = (l.outcome? i).or (more.lookup i) := by
  rw [outcome?, h, List.lookup_append]
  rfl

theorem outcome?_cases {more : List (Nat × LoadOutcome)} (h : next.outcomes = l.outcomes ++ more)
    {outcome : LoadOutcome} (hend : next.outcome? i = some outcome) :
    l.outcome? i = some outcome ∨ l.outcome? i = none ∧ (i, outcome) ∈ more := by
  rw [outcome?_of_append h] at hend
  refine (Option.or_eq_some_iff.mp hend).imp_right (And.imp_right fun hnew => ?_)
  obtain ⟨before, after, rfl, -⟩ := List.lookup_eq_some_iff.mp hnew
  exact List.mem_append_right _ List.mem_cons_self

theorem Files.ends_of_append (h : l.Files db tables loads) {more : List (Nat × LoadOutcome)}
    (happend : next.outcomes = l.outcomes ++ more)
    (hmore : ∀ p ∈ more, ∃ load, loads[p.1]? = some load ∧ p.2 = db.endOf tables load) :
    ∀ i outcome, next.outcome? i = some outcome → ∃ load, loads[i]? = some load ∧
      outcome = db.endOf tables load := by
  intro i outcome hend
  rcases outcome?_cases happend hend with hbefore | ⟨-, hnew⟩
  · exact h.ends i outcome hbefore
  · exact hmore (i, outcome) hnew

/-! ## Refusing -/

theorem Files.refuse (h : l.Files db tables loads) (hload : loads[i]? = some load) {fault : Fault}
    (hkey : db.loadKey load.model load.asked = .error fault) :
    (l.refuse i fault).Files db tables loads where
  ordered := h.ordered
  filed := h.filed
  ends := h.ends_of_append rfl (by simpa using ⟨load, hload, (db.endOf_eq_error hkey).symm⟩)

/-! ## Registering -/

/-- With one waiter more, an entry is as before, or has it, or is new. -/
theorem mem_addWaiter {entries : List LoadEntry} {e : LoadEntry}
    (h : e ∈ LoadEntry.addWaiter i key entries) :
    e ∈ entries ∨ e = ⟨LoadEntry.idOf key, key, [i]⟩ ∨
      ∃ f ∈ entries, f.id = LoadEntry.idOf key ∧ e = { f with waiters := f.waiters ++ [i] } := by
  induction entries with
  | nil => exact .inr (.inl (List.mem_singleton.mp h))
  | cons f rest ih =>
    unfold LoadEntry.addWaiter at h
    split at h
    · rename_i hid
      rcases List.mem_cons.mp h with rfl | hmem
      · exact .inr (.inr ⟨f, List.mem_cons_self, hid, rfl⟩)
      · exact .inl (List.mem_cons_of_mem f hmem)
    · rcases List.mem_cons.mp h with rfl | hmem
      · exact .inl List.mem_cons_self
      · refine (ih hmem).imp (List.mem_cons_of_mem f) (.imp_right ?_)
        rintro ⟨g, hg, hrest⟩
        exact ⟨g, List.mem_cons_of_mem f hg, hrest⟩

/-- A load is filed under its key. -/
theorem isFiled_addWaiter (hload : loads[i]? = some load)
    (hkey : db.loadKey load.model load.asked = .ok key) {entries : List LoadEntry}
    (h : entries ≠ [] → LoadBatch.IsFiled db loads ⟨load.model, entries⟩) :
    LoadBatch.IsFiled db loads ⟨load.model, LoadEntry.addWaiter i key entries⟩ where
  exists_table := Database.exists_table_of_loadKey hkey
  id_eq := by
    intro e he
    rcases mem_addWaiter he with hmem | rfl | ⟨f, hf, -, rfl⟩
    · exact (h (List.ne_nil_of_mem hmem)).id_eq e hmem
    · rfl
    · exact (h (List.ne_nil_of_mem hf)).id_eq f hf
  waiters := by
    intro e he j hj
    rcases mem_addWaiter he with hmem | rfl | ⟨f, hf, hid, rfl⟩
    · exact (h (List.ne_nil_of_mem hmem)).waiters e hmem j hj
    · obtain rfl := List.mem_singleton.mp hj
      exact ⟨load, hload, rfl, hkey⟩
    · have hbatch := h (List.ne_nil_of_mem hf)
      rcases List.mem_append.mp hj with hold | hnew
      · exact hbatch.waiters f hf j hold
      · obtain rfl := List.mem_singleton.mp hnew
        obtain rfl : key = f.key := LoadEntry.idOf_injective (hid.symm.trans (hbatch.id_eq f hf))
        exact ⟨load, hload, rfl, hkey⟩

theorem Files.register (h : l.Files db tables loads) (hload : loads[i]? = some load)
    (hkey : db.loadKey load.model load.asked = .ok key) :
    (l.register load.model i key).Files db tables loads where
  ordered := h.ordered.insert _ _
  filed := by
    intro batch hbatch
    rcases List.mem_cons.mp ((register_pendingBatches_perm h.ordered).subset hbatch) with
      rfl | hother
    · refine isFiled_addWaiter hload hkey fun hne => ?_
      unfold pendingFor at hne ⊢
      cases hpending : Fields.get? l.pending load.model with
      | none =>
        rw [hpending] at hne
        exact absurd rfl hne
      | some entries => exact h.filed _ (mem_pendingBatches hpending)
    · exact h.filed batch (othersPending_subset hother)
  ends := h.ends

/-! ## Fetching -/

theorem Fetches.pendingBatches_eq (h : l.Fetches db tables model next) :
    next.pendingBatches = l.othersPending model := by
  rw [pendingBatches, h.pending_eq]
  rfl

/-- The loads of a batch end with the rows of their own keys. -/
theorem ends_outcomesOf {entries : List LoadEntry} {t : Table}
    (hfiled : LoadBatch.IsFiled db loads ⟨model, entries⟩) (hlies : db.LiesOn model tables t) :
    ∀ p ∈ outcomesOf ⟨model, entries⟩ (.ok (Database.rowsByKey t.keys
      ((RetryConfig.distinctKeys (entries.map LoadEntry.key)).filterMap t.find?))),
      ∃ load, loads[p.1]? = some load ∧ p.2 = db.endOf tables load := by
  intro p hp
  obtain ⟨e, he, hp⟩ := List.mem_flatMap.mp hp
  obtain ⟨j, hj, rfl⟩ := List.mem_map.mp hp
  obtain ⟨load, hload, rfl, hkey⟩ := hfiled.waiters e he j hj
  obtain ⟨hisKey, hin⟩ := hlies.of_loadKey hkey
  refine ⟨load, hload, ?_⟩
  rw [hlies.endOf_eq hkey, Except.map, hfiled.id_eq e he,
    hlies.wellKeyed.get?_rowsByKey hisKey hin (List.mem_map_of_mem he)]

theorem Files.fetches (h : l.Files db tables loads) (hfetches : l.Fetches db tables model next) :
    next.Files db tables loads where
  ordered := hfetches.pending_eq ▸ h.ordered.erase model
  filed := fun batch hbatch =>
    h.filed batch (othersPending_subset (hfetches.pendingBatches_eq ▸ hbatch))
  ends := by
    obtain ⟨entries, t, hpending, hlies, houtcomes⟩ := hfetches.exists_outcomes
    exact h.ends_of_append houtcomes (ends_outcomesOf (h.filed _ (mem_pendingBatches hpending)) hlies)

/-! ## Nobody is lost -/

theorem has_refuse (l : Loader) (i : Nat) (fault : Fault) : (l.refuse i fault).Has i := by
  have happend : (l.refuse i fault).outcomes = l.outcomes ++ [(i, .error fault)] := rfl
  refine .inr ?_
  rw [outcome?_of_append happend]
  simp

theorem Has.refuse (h : l.Has i) (j : Nat) (fault : Fault) : (l.refuse j fault).Has i :=
  h.imp_right (isSome_outcome?_of_append rfl)

theorem has_register (ho : l.pending.Ordered) (model : String) (i : Nat) (key : Item) :
    (l.register model i key).Has i :=
  .inl ((register_waiters_perm ho).symm.subset (List.mem_append_right _ List.mem_cons_self))

theorem Has.register (h : l.Has i) (ho : l.pending.Ordered) (model : String) (j : Nat) (key : Item) :
    (l.register model j key).Has i :=
  h.imp_left fun hmem => (register_waiters_perm ho).symm.subset (List.mem_append_left _ hmem)

theorem Has.fetches (h : l.Has i) (ho : l.pending.Ordered)
    (hfetches : l.Fetches db tables model next) : next.Has i := by
  obtain ⟨entries, t, hpending, -, houtcomes⟩ := hfetches.exists_outcomes
  rcases h with hmem | hend
  · have hsplit := ((pendingBatches_perm ho hpending).flatMap_right LoadBatch.waiters).subset hmem
    rw [List.flatMap_cons, ← hfetches.pendingBatches_eq] at hsplit
    refine (List.mem_append.mp hsplit).symm.imp_right fun hbatch => ?_
    rw [← outcomesOf_waiters] at hbatch
    refine Option.isSome_iff_ne_none.mpr fun hnone => outcome?_eq_none_iff.mp hnone ?_
    rw [houtcomes, List.map_append]
    exact List.mem_append_right _ hbatch
  · exact .inr (hfetches.isSome_outcome? hend)

end Loader

end KeyedQuery
