import KeyedQuery.Proofs.Store.Memory
import KeyedQuery.Proofs.Store.Writes
import KeyedQuery.Proofs.Value.Text

/-!
# Transactions of the store

A transaction amounts to its writes one at a time, all of them or none (`Memory.transact_iff`). What the
store adds is that no two writes may be to one row. It tells rows apart by the groups of their key
values, whatever the attributes are called; these are the same exactly for rows of one key, as long as
every write gives a value of the partition attribute (`Table.groups_eq_iff`).
-/

namespace KeyedQuery

/-! ## Keys and groups -/

instance Value.decidableIsExact : ∀ v : Value, Decidable v.IsExact
  | .str _ | .bool _ => .isTrue trivial
  | .num n => inferInstanceAs (Decidable (n.toBinary64.integer?.isSome = true))
  | .null | .list _ | .map _ => .isFalse id

/-- Fields with the same names have the same groups if their values have. -/
theorem Fields.groups_eq_iff : ∀ {fs gs : Fields Value}, names fs = names gs → (names fs).Nodup →
    ((fs.map fun field => field.2.groupKey) = (gs.map fun field => field.2.groupKey) ↔
      ∀ k v w, get? fs k = some v → get? gs k = some w → v.groupKey = w.groupKey)
  | [], [], _, _ => by simp
  | [], g :: gs, h, _ => by simp [names] at h
  | f :: fs, [], h, _ => by simp [names] at h
  | (k, v) :: fs, (l, w) :: gs, h, hnodup => by
    obtain ⟨hname, hrest⟩ := List.cons.inj h
    obtain ⟨hnot, hnodup⟩ := List.nodup_cons.mp hnodup
    obtain rfl : k = l := hname
    rw [List.map_cons, List.map_cons, List.cons.injEq, groups_eq_iff hrest hnodup]
    constructor
    · rintro ⟨hgroup, hgroups⟩ key x y hx hy
      rw [get?_cons] at hx hy
      by_cases hk : k = key
      · rw [if_pos hk] at hx hy
        obtain rfl := Option.some.inj hx
        obtain rfl := Option.some.inj hy
        exact hgroup
      · rw [if_neg hk] at hx hy
        exact hgroups key x y hx hy
    · intro hall
      refine ⟨hall k v w (by simp [get?_cons]) (by simp [get?_cons]), fun key x y hx hy => ?_⟩
      have hne : k ≠ key := by
        rintro rfl
        rw [get?_eq_none_iff.mpr hnot] at hx
        cases hx
      exact hall key x y (by rw [get?_cons, if_neg hne, hx]) (by rw [get?_cons, if_neg hne, hy])

namespace Table

variable {t : Table} {a b : Item}

/-- The row names a key: it has a value of the partition attribute, and its key values are texts, truth
values or integers that are told apart by their groups. -/
structure NamesKey (t : Table) (row : Item) : Prop where
  partition : (Fields.get? row t.keys.partition).isSome
  exact : ∀ k ∈ t.keys.attributes, ∀ v ∈ Fields.get? row k, v.IsExact

instance (t : Table) (row : Item) : Decidable (t.NamesKey row) :=
  decidable_of_iff ((Fields.get? row t.keys.partition).isSome ∧
    ∀ k ∈ t.keys.attributes, ∀ v ∈ Fields.get? row k, v.IsExact)
    ⟨fun h => ⟨h.1, h.2⟩, fun h => ⟨h.1, h.2⟩⟩

/-- The rows have the same key attributes, with values that agree. -/
def KeysAgree (t : Table) (a b : Item) : Prop :=
  t.sameKey a b = true ∧ t.sameKey b a = true

instance (t : Table) (a b : Item) : Decidable (t.KeysAgree a b) :=
  inferInstanceAs (Decidable (_ ∧ _))

theorem mem_names_keyOf {k : String} :
    k ∈ Fields.names (t.keyOf a) ↔ k ∈ t.keys.attributes ∧ (Fields.get? a k).isSome := by
  rw [← Fields.isSome_get?_iff, get?_keyOf]
  split <;> simp_all

theorem KeysAgree.names_eq (h : t.KeysAgree a b) :
    Fields.names (t.keyOf a) = Fields.names (t.keyOf b) := by
  refine (t.ordered_keyOf a).names_eq (t.ordered_keyOf b) fun k => ?_
  rw [mem_names_keyOf, mem_names_keyOf]
  refine and_congr_right fun hk => ?_
  rw [Option.isSome_iff_exists, Option.isSome_iff_exists]
  constructor
  · rintro ⟨v, hv⟩
    obtain ⟨w, hw, -⟩ := sameKey_iff.mp h.2 k hk v hv
    exact ⟨w, hw⟩
  · rintro ⟨v, hv⟩
    obtain ⟨w, hw, -⟩ := sameKey_iff.mp h.1 k hk v hv
    exact ⟨w, hw⟩

/-- Of two rows with the partition attribute and as many key attributes, one has the key attributes of
the other. -/
theorem names_subset_of_length_eq (ha : (Fields.get? a t.keys.partition).isSome)
    (hb : (Fields.get? b t.keys.partition).isSome)
    (hlength : (Fields.names (t.keyOf a)).length = (Fields.names (t.keyOf b)).length) :
    Fields.names (t.keyOf a) ⊆ Fields.names (t.keyOf b) := by
  have hpartition : ∀ {c : Item}, (Fields.get? c t.keys.partition).isSome →
      t.keys.partition ∈ Fields.names (t.keyOf c) := fun h =>
    mem_names_keyOf.mpr ⟨List.mem_cons_self, h⟩
  intro k hk
  by_contra hnot
  have hne : t.keys.partition ≠ k := fun heq => hnot (heq ▸ hpartition hb)
  have hpair : [t.keys.partition, k].Nodup := by simpa using hne
  have hboth : [t.keys.partition, k] ⊆ Fields.names (t.keyOf a) := by
    simpa using ⟨hpartition ha, hk⟩
  have htwo := (hpair.subperm hboth).length_le
  -- besides the partition attribute there is only the sort attribute
  have hone : Fields.names (t.keyOf b) ⊆ [t.keys.partition] := by
    intro l hl
    have hkey := (mem_names_keyOf.mp hk).1
    have hlkey := (mem_names_keyOf.mp hl).1
    rw [KeySchema.attributes, List.mem_cons, Option.mem_toList] at hkey hlkey
    rw [List.mem_singleton]
    refine hlkey.resolve_right fun hsort => hnot ?_
    obtain rfl : k = l :=
      Option.some.inj ((hkey.resolve_left (Ne.symm hne)).symm.trans hsort)
    exact hl
  have := ((t.ordered_keyOf b).nodup.subperm hone).length_le
  simp only [List.length_cons, List.length_nil] at this htwo
  omega

/-- Rows with the partition attribute have one key if their key values have the same groups. -/
theorem keysAgree_of_groups_eq (ha : (Fields.get? a t.keys.partition).isSome)
    (hb : (Fields.get? b t.keys.partition).isSome)
    (h : ((t.keyOf a).map fun field => field.2.groupKey) =
      (t.keyOf b).map fun field => field.2.groupKey) : t.KeysAgree a b := by
  have hlength : (Fields.names (t.keyOf a)).length = (Fields.names (t.keyOf b)).length := by
    simpa [Fields.names] using congrArg List.length h
  have hnames := (t.ordered_keyOf a).names_eq (t.ordered_keyOf b) fun k =>
    ⟨fun hk => names_subset_of_length_eq ha hb hlength hk,
      fun hk => names_subset_of_length_eq hb ha hlength.symm hk⟩
  have hgroups := (Fields.groups_eq_iff hnames (t.ordered_keyOf a).nodup).mp h
  have hsame : ∀ {c d : Item}, Fields.names (t.keyOf c) = Fields.names (t.keyOf d) →
      (∀ k v w, Fields.get? (t.keyOf c) k = some v → Fields.get? (t.keyOf d) k = some w →
        v.groupKey = w.groupKey) → t.sameKey c d = true := by
    intro c d hnames hgroups
    refine sameKey_iff.mpr fun k hk v hv => ?_
    have hmem : k ∈ Fields.names (t.keyOf c) :=
      hnames ▸ mem_names_keyOf.mpr ⟨hk, by rw [hv]; rfl⟩
    obtain ⟨w, hw⟩ := Option.isSome_iff_exists.mp (mem_names_keyOf.mp hmem).2
    exact ⟨w, hw, Value.agrees_of_groupKey_eq (hgroups k w v (by rw [get?_keyOf, if_pos hk, hw])
      (by rw [get?_keyOf, if_pos hk, hv]))⟩
  exact ⟨hsame hnames hgroups, hsame hnames.symm fun k v w hv hw => (hgroups k w v hw hv).symm⟩

/-- The key values of rows that name a key have the same groups exactly if the keys agree. -/
theorem groups_eq_iff (ha : t.NamesKey a) (hb : t.NamesKey b) :
    ((t.keyOf a).map fun field => field.2.groupKey) =
      ((t.keyOf b).map fun field => field.2.groupKey) ↔ t.KeysAgree a b := by
  refine ⟨keysAgree_of_groups_eq ha.partition hb.partition, fun h => ?_⟩
  refine (Fields.groups_eq_iff h.names_eq (t.ordered_keyOf a).nodup).mpr fun k v w hv hw => ?_
  rw [get?_keyOf] at hv hw
  split at hv
  · rename_i hk
    rw [if_pos hk] at hw
    obtain ⟨u, hu, hagrees⟩ := sameKey_iff.mp h.1 k hk w hw
    obtain rfl := Option.some.inj (hu.symm.trans hv)
    exact (Value.groupKey_eq_iff (hb.exact k hk w hw)).mpr hagrees
  · cases hv

end Table

/-! ## Writes one at a time -/

/-- An update stores the changed row. -/
theorem Table.eq_upsert_of_update_eq_ok {t : Table} {key : Item} {expression : String}
    {attributes : Attributes} {pair : Item × Table} (h : t.update key expression attributes = .ok pair) :
    pair.2 = t.upsert pair.1 := by
  obtain ⟨item, -, hpair⟩ := exists_of_bind_eq_ok h
  obtain rfl := Except.ok.inj hpair
  rfl

/-- The request that carries out the write by itself. -/
def Write.request : Write → Request
  | .put table item => .put table item
  | .update table key expression attributes => .update table key expression attributes false
  | .delete table key => .delete table key

/-- The writes of a request. -/
def Request.writes : Request → List Write
  | .page _ | .batchGet _ _ => []
  | .transact writes _ => writes
  | .put table item => [.put table item]
  | .update table key expression attributes _ => [.update table key expression attributes]
  | .delete table key => [.delete table key]

@[simp]
theorem Write.kind_request (w : Write) : w.request.kind = .write := by
  cases w <;> rfl

/-- The writes are to the same key of one table. -/
def Write.SameRow (tables : Fields Table) (v w : Write) : Prop :=
  v.table = w.table ∧ ∃ t ∈ Fields.get? tables v.table, t.KeysAgree v.row w.row

instance (tables : Fields Table) (v w : Write) : Decidable (v.SameRow tables w) :=
  inferInstanceAs (Decidable (_ ∧ _))

/-- What tells the row of a write to a known table from others in a transaction. -/
def Write.identity? (tables : Fields Table) (w : Write) : Option Memory.RowIdentity :=
  (Fields.get? tables w.table).map fun t => Memory.identity t w

namespace Memory

variable {m next : Memory} {t t' : Table} {v w : Write} {writes : List Write}

/-- The store after a write by itself. -/
def carryOut (m : Memory) (w : Write) : Except StoreFault Memory :=
  match receive w.request m with
  | (.ok _, next) => .ok next
  | (.error fault, _) => .error fault

/-- A write by itself succeeds if its table is known and can be written. -/
theorem carryOut_eq_ok_iff (hwrites : ∀ f ∈ m.failures, f.1 ≠ .write) : m.carryOut w = .ok next ↔
    ∃ t t', Fields.get? m.tables w.table = some t ∧ applyWrite t w = .ok t' ∧
      next = m.withTable w.table t' := by
  unfold carryOut
  rw [receive_of_unscripted (w.kind_request ▸ hwrites)]
  cases w with
  | put table item =>
    simp only [Write.request, perform, Write.table, Memory.table]
    cases Fields.get? m.tables table <;> simp [commit, Except.map, applyWrite, eq_comm]
  | delete table key =>
    simp only [Write.request, perform, Write.table, Memory.table]
    cases Fields.get? m.tables table <;> simp [commit, Except.map, applyWrite, eq_comm]
  | update table key expression attributes =>
    simp only [Write.request, perform, Write.table, Memory.table]
    cases Fields.get? m.tables table with
    | none => simp [commit, bind, Except.bind]
    | some t =>
      cases hupdate : t.update key expression attributes <;>
        simp [commit, bind, Except.bind, Except.mapError, applyWrite, hupdate, eq_comm]

/-- One write of a transaction succeeds if its table is known and can be written, and if no write
before it was to its row. -/
theorem transactOne_eq_ok_iff {tables : Fields Table} {touched : List RowIdentity}
    {state : Fields Table × List RowIdentity} : transactOne (tables, touched) w = .ok state ↔
    ∃ t t', Fields.get? tables w.table = some t ∧ identity t w ∉ touched ∧
      applyWrite t w = .ok t' ∧
      state = (Fields.insert tables w.table t', identity t w :: touched) := by
  unfold transactOne
  dsimp only
  cases Fields.get? tables w.table with
  | none => simp
  | some t =>
    by_cases htouched : identity t w ∈ touched
    · simp [htouched]
    · cases happly : applyWrite t w <;>
        simp [htouched, happly, bind, Except.bind, eq_comm]

/-- A write stores a row in its table or drops a key from it. -/
theorem applyWrite_cases (h : applyWrite t w = .ok t') :
    (∃ item, t' = t.upsert item) ∨ ∃ key, t' = t.remove key := by
  cases w with
  | put table item => exact .inl ⟨item, (Except.ok.inj h).symm⟩
  | delete table key => exact .inr ⟨key, (Except.ok.inj h).symm⟩
  | update table key expression attributes =>
    cases hupdate : t.update key expression attributes with
    | error fault =>
      rw [applyWrite, hupdate] at h
      cases h
    | ok pair =>
      rw [applyWrite, hupdate] at h
      exact .inl ⟨pair.1, (Except.ok.inj h).symm.trans (Table.eq_upsert_of_update_eq_ok hupdate)⟩

/-- A write leaves the key attributes of its table alone. -/
theorem keys_of_applyWrite (h : applyWrite t w = .ok t') : t'.keys = t.keys := by
  rcases applyWrite_cases h with ⟨item, rfl⟩ | ⟨key, rfl⟩
  · exact t.upsert_keys item
  · exact t.remove_keys key

/-- A write as the only one of a transaction. -/
theorem foldlM_transactOne_single {tables : Fields Table} (ht : Fields.get? tables w.table = some t)
    (happly : applyWrite t w = .ok t') :
    [w].foldlM transactOne (tables, []) =
      .ok (Fields.insert tables w.table t', [identity t w]) := by
  rw [List.foldlM_cons, transactOne_eq_ok_iff.mpr ⟨t, t', ht, List.not_mem_nil, happly, rfl⟩]
  rfl

theorem get?_of_table_eq_ok {name : String} (h : m.table name = .ok t) :
    Fields.get? m.tables name = some t := by
  unfold Memory.table at h
  cases hget : Fields.get? m.tables name with
  | none =>
    rw [hget] at h
    cases h
  | some u =>
    rw [hget] at h
    obtain rfl := Except.ok.inj h
    rfl

/-- A change that fails leaves the tables as they were. -/
theorem tables_commit {α : Type} {change : Except StoreFault (α × Memory)} {writes : List Write}
    (h : ∀ a next, change = .ok (a, next) → ∃ state,
      writes.foldlM transactOne (m.tables, []) = .ok state ∧ next.tables = state.1) :
    (m.commit change).2.tables = m.tables ∨ ∃ state,
      writes.foldlM transactOne (m.tables, []) = .ok state ∧ (m.commit change).2.tables = state.1 := by
  cases hchange : change with
  | error fault => exact .inl rfl
  | ok pair => exact .inr (h pair.1 pair.2 hchange)

theorem tables_batchGet (m : Memory) (name : String) (keys : List Item) :
    (m.batchGet name keys).2.tables = m.tables := by
  unfold batchGet
  split
  · rfl
  · split <;> rfl

/-- Whatever a store is asked, it leaves its tables as they were, or as all writes of the request leave
them one after another. -/
theorem tables_perform (m : Memory) (r : Request) : (m.perform r).2.tables = m.tables ∨
    ∃ state, r.writes.foldlM transactOne (m.tables, []) = .ok state ∧
      (m.perform r).2.tables = state.1 := by
  cases r with
  | page q => exact .inl rfl
  | batchGet table keys => exact .inl (m.tables_batchGet table keys)
  | transact writes token =>
    refine tables_commit fun _ next hnext => ?_
    obtain ⟨changed, htransact, hpair⟩ := exists_of_map_eq_ok hnext
    obtain rfl := (Prod.mk.inj hpair).2
    unfold transact at htransact
    split at htransact
    · cases htransact
    · obtain ⟨state, hfold, rfl⟩ := exists_of_map_eq_ok htransact
      exact ⟨state, hfold, rfl⟩
  | put table item =>
    refine tables_commit fun _ next hnext => ?_
    obtain ⟨t, ht, hpair⟩ := exists_of_map_eq_ok hnext
    obtain rfl := (Prod.mk.inj hpair).2
    exact ⟨_, foldlM_transactOne_single (w := .put table item) (get?_of_table_eq_ok ht) rfl, rfl⟩
  | delete table key =>
    refine tables_commit fun _ next hnext => ?_
    obtain ⟨t, ht, hpair⟩ := exists_of_map_eq_ok hnext
    obtain rfl := (Prod.mk.inj hpair).2
    exact ⟨_, foldlM_transactOne_single (w := .delete table key) (get?_of_table_eq_ok ht) rfl, rfl⟩
  | update table key expression attributes returnUpdated =>
    refine tables_commit fun _ next hnext => ?_
    obtain ⟨t, ht, hnext⟩ := exists_of_bind_eq_ok hnext
    obtain ⟨⟨item, u⟩, hupdate, hnext⟩ := exists_of_bind_eq_ok hnext
    obtain rfl := (Prod.mk.inj (Except.ok.inj hnext)).2
    have happly : applyWrite t (.update table key expression attributes) = .ok u := by
      rw [applyWrite, of_mapError_eq_ok hupdate]
    exact ⟨_, foldlM_transactOne_single (w := .update table key expression attributes)
      (get?_of_table_eq_ok ht) happly, rfl⟩

/-- Rows are told apart after a write as they were before. -/
theorem identity?_withTable (ht : Fields.get? m.tables w.table = some t)
    (hkeys : t'.keys = t.keys) (v : Write) :
    v.identity? (m.withTable w.table t').tables = v.identity? m.tables := by
  show (Fields.get? (Fields.insert m.tables w.table t') v.table).map (identity · v) =
    (Fields.get? m.tables v.table).map (identity · v)
  rw [Fields.get?_insert]
  split
  · rename_i hname
    rw [← hname, ht, Option.map_some, Option.map_some, identity, identity,
      Table.keyOf_congr hkeys]
  · rfl

/-! ## Transactions -/

/-- The writes of a transaction succeed behind others that wrote the given rows exactly if they are to
other rows, each to one of its own, and if they succeed one at a time. Both ways leave the same store.
The induction is on the writes; what tells rows apart stays as it is. -/
theorem foldlM_transactOne_iff : ∀ {writes : List Write} {m next : Memory}
    (touched : List RowIdentity), (∀ f ∈ m.failures, f.1 ≠ .write) →
    ((writes.foldlM transactOne (m.tables, touched)).map
        (fun state => { m with tables := state.1 }) = .ok next ↔
      ((∀ w ∈ writes, ∀ i ∈ w.identity? m.tables, i ∉ touched) ∧
        writes.Pairwise fun v w => ∀ i ∈ v.identity? m.tables, i ∉ w.identity? m.tables) ∧
        writes.foldlM carryOut m = .ok next)
  | [], m, next, touched, _ => by simp [pure, Except.pure, Except.map]
  | w :: writes, m, next, touched, hwrites => by
    rw [List.foldlM_cons, List.foldlM_cons, List.pairwise_cons]
    constructor
    · intro h
      obtain ⟨final, hfold, rfl⟩ := exists_of_map_eq_ok h
      obtain ⟨state, hone, hrest⟩ := exists_of_bind_eq_ok hfold
      obtain ⟨t, t', ht, hfresh, happly, rfl⟩ := transactOne_eq_ok_iff.mp hone
      have hidentity := identity?_withTable ht (keys_of_applyWrite happly)
      have hcarry : m.carryOut w = .ok (m.withTable w.table t') :=
        (carryOut_eq_ok_iff hwrites).mpr ⟨t, t', ht, happly, rfl⟩
      have hmapped : (writes.foldlM transactOne
          ((m.withTable w.table t').tables, identity t w :: touched)).map
            (fun state => { m.withTable w.table t' with tables := state.1 }) =
          .ok { m with tables := final.1 } := congrArg (Except.map _) hrest
      have hafter := (foldlM_transactOne_iff (m := m.withTable w.table t') _ hwrites).mp hmapped
      simp only [hidentity] at hafter
      obtain ⟨⟨hothers, hapart⟩, hfold⟩ := hafter
      have hw : w.identity? m.tables = some (identity t w) := by rw [Write.identity?, ht]; rfl
      refine ⟨⟨?_, ?_, hapart⟩, by rw [hcarry]; exact hfold⟩
      · intro v hv i hi
        rcases List.mem_cons.mp hv with rfl | hv
        · obtain rfl := Option.some.inj (hw.symm.trans hi)
          exact hfresh
        · exact fun hmem => hothers v hv i hi (List.mem_cons_of_mem _ hmem)
      · intro v hv i hi hi'
        obtain rfl := Option.some.inj (hw.symm.trans hi)
        exact hothers v hv _ hi' List.mem_cons_self
    · rintro ⟨⟨hfresh, hapart, hrest⟩, hfold⟩
      obtain ⟨between, hcarry, hfold⟩ := exists_of_bind_eq_ok hfold
      obtain ⟨t, t', ht, happly, rfl⟩ := (carryOut_eq_ok_iff hwrites).mp hcarry
      have hidentity := identity?_withTable ht (keys_of_applyWrite happly)
      have hw : w.identity? m.tables = some (identity t w) := by rw [Write.identity?, ht]; rfl
      have hone := transactOne_eq_ok_iff.mpr
        ⟨t, t', ht, hfresh w List.mem_cons_self _ hw, happly, rfl⟩
      have hothers : ∀ v ∈ writes, ∀ i ∈ v.identity? m.tables, i ∉ identity t w :: touched := by
        intro v hv i hi hmem
        rcases List.mem_cons.mp hmem with rfl | hmem
        · exact hapart v hv _ hw hi
        · exact hfresh v (List.mem_cons_of_mem _ hv) i hi hmem
      have hafter := (foldlM_transactOne_iff (m := m.withTable w.table t')
        (identity t w :: touched) hwrites).mpr
        ⟨by simpa only [hidentity] using ⟨hothers, hrest⟩, hfold⟩
      rw [hone]
      exact hafter

/-- Writes that give a value of the partition attribute are told apart if they are to different rows. -/
theorem identity?_apart
    (hv : ∀ t, Fields.get? m.tables v.table = some t → (Fields.get? v.row t.keys.partition).isSome)
    (hw : ∀ t, Fields.get? m.tables w.table = some t → (Fields.get? w.row t.keys.partition).isSome)
    (h : ¬v.SameRow m.tables w) : ∀ i ∈ v.identity? m.tables, i ∉ w.identity? m.tables := by
  intro i hi hi'
  obtain ⟨t, ht, rfl⟩ := Option.map_eq_some_iff.mp hi
  obtain ⟨u, hu, heq⟩ := Option.map_eq_some_iff.mp hi'
  obtain ⟨htable, hgroups⟩ := Prod.mk.inj heq
  have hwtable : Fields.get? m.tables w.table = some t := htable ▸ ht
  obtain rfl := Option.some.inj (hu.symm.trans hwtable)
  exact h ⟨htable.symm, u, ht, Table.keysAgree_of_groups_eq (hv u ht) (hw u hwtable) hgroups.symm⟩

/-- Writes that name keys are told apart exactly if they are to different rows. -/
theorem identity?_apart_iff (hv : ∀ t, Fields.get? m.tables v.table = some t → t.NamesKey v.row)
    (hw : ∀ t, Fields.get? m.tables w.table = some t → t.NamesKey w.row) :
    (∀ i ∈ v.identity? m.tables, i ∉ w.identity? m.tables) ↔ ¬v.SameRow m.tables w := by
  refine ⟨?_, identity?_apart (fun t ht => (hv t ht).partition) fun t ht => (hw t ht).partition⟩
  rintro hapart ⟨htable, t, ht, hagree⟩
  have hwtable : Fields.get? m.tables w.table = some t := htable ▸ ht
  refine hapart (identity t v) (Option.map_eq_some_iff.mpr ⟨t, ht, rfl⟩)
    (Option.map_eq_some_iff.mpr ⟨t, hwtable, ?_⟩)
  exact Prod.ext htable.symm
    ((Table.groups_eq_iff (hv t ht) (hw t hwtable)).mpr hagree).symm

/-! ## Cancelled transactions -/

variable {fault : StoreFault}

theorem transactOne_eq_error {tables : Fields Table} {touched : List RowIdentity}
    (hfresh : ∀ i ∈ w.identity? tables, i ∉ touched)
    (h : transactOne (tables, touched) w = .error fault) :
    ∃ message, fault = .canceled message := by
  unfold transactOne at h
  dsimp only at h
  cases ht : Fields.get? tables w.table with
  | none =>
    rw [ht] at h
    exact ⟨_, (Except.error.inj h).symm⟩
  | some t =>
    rw [ht] at h
    dsimp only at h
    rw [if_neg (hfresh (identity t w) (Option.map_eq_some_iff.mpr ⟨t, ht, rfl⟩))] at h
    cases w with
    | put table item => cases h
    | delete table key => cases h
    | update table key expression attributes =>
      cases hupdate : t.update key expression attributes with
      | ok pair =>
        rw [applyWrite, hupdate] at h
        cases h
      | error complaint =>
        rw [applyWrite, hupdate] at h
        exact ⟨_, (Except.error.inj h).symm⟩

theorem foldlM_transactOne_eq_error : ∀ {writes : List Write} {m : Memory}
    (touched : List RowIdentity),
    (∀ w ∈ writes, ∀ i ∈ w.identity? m.tables, i ∉ touched) →
    (writes.Pairwise fun v w => ∀ i ∈ v.identity? m.tables, i ∉ w.identity? m.tables) →
    writes.foldlM transactOne (m.tables, touched) = .error fault →
    ∃ message, fault = .canceled message
  | [], _, _, _, _, h => by cases h
  | w :: writes, m, touched, hfresh, hapart, h => by
    obtain ⟨hw, hrest⟩ := List.pairwise_cons.mp hapart
    rw [List.foldlM_cons] at h
    cases hone : transactOne (m.tables, touched) w with
    | error first =>
      rw [hone] at h
      obtain rfl := Except.error.inj h
      exact transactOne_eq_error (hfresh w List.mem_cons_self) hone
    | ok state =>
      rw [hone] at h
      obtain ⟨t, t', ht, -, happly, rfl⟩ := transactOne_eq_ok_iff.mp hone
      have hidentity := identity?_withTable ht (keys_of_applyWrite happly)
      have hmine : w.identity? m.tables = some (identity t w) :=
        Option.map_eq_some_iff.mpr ⟨t, ht, rfl⟩
      refine foldlM_transactOne_eq_error (m := m.withTable w.table t') (identity t w :: touched)
        (fun v hv i hi hmem => ?_) (by simpa only [hidentity] using hrest) h
      rw [hidentity] at hi
      rcases List.mem_cons.mp hmem with rfl | hmem
      · exact hw v hv _ hmine hi
      · exact hfresh v (List.mem_cons_of_mem w hv) i hi hmem

/-- If at most 25 writes are to different rows, a transaction of them is carried out or cancelled: the
store has nothing to say against the request as such. -/
theorem transact_eq_error (hlength : writes.length ≤ maxTransactionWrites)
    (hkeys : ∀ w ∈ writes, ∀ t, Fields.get? m.tables w.table = some t →
      (Fields.get? w.row t.keys.partition).isSome)
    (hapart : writes.Pairwise fun v w => ¬v.SameRow m.tables w)
    (h : m.transact writes = .error fault) : ∃ message, fault = .canceled message := by
  unfold transact at h
  rw [if_neg (Nat.not_lt.mpr hlength)] at h
  cases hfold : writes.foldlM transactOne (m.tables, []) with
  | ok state =>
    rw [hfold] at h
    cases h
  | error first =>
    rw [hfold] at h
    obtain rfl := Except.error.inj h
    exact foldlM_transactOne_eq_error [] (fun _ _ _ _ => List.not_mem_nil)
      (hapart.imp_of_mem fun hv hw => identity?_apart (hkeys _ hv) (hkeys _ hw)) hfold

/-! ## All or nothing -/

theorem transact_eq_ok_iff (hwrites : ∀ f ∈ m.failures, f.1 ≠ .write)
    (hkeys : ∀ w ∈ writes, ∀ t, Fields.get? m.tables w.table = some t → t.NamesKey w.row) :
    m.transact writes = .ok next ↔
      writes.length ≤ 25 ∧ (writes.Pairwise fun v w => ¬v.SameRow m.tables w) ∧
        writes.foldlM carryOut m = .ok next := by
  rw [transact]
  split
  · rename_i hmany
    simp only [reduceCtorEq, false_iff, not_and]
    exact fun hle => absurd hle (Nat.not_le.mpr hmany)
  · rename_i hfew
    have hnone : ∀ w ∈ writes, ∀ i ∈ w.identity? m.tables, i ∉ ([] : List RowIdentity) :=
      fun _ _ _ _ => List.not_mem_nil
    have hlength : writes.length ≤ 25 := Nat.not_lt.mp hfew
    refine (foldlM_transactOne_iff [] hwrites).trans ?_
    simp only [eq_true hnone, eq_true hlength, true_and]
    refine and_congr_left fun _ => ?_
    exact ⟨fun h => h.imp_of_mem fun hv hw =>
        (identity?_apart_iff (hkeys _ hv) (hkeys _ hw)).mp,
      fun h => h.imp_of_mem fun hv hw => (identity?_apart_iff (hkeys _ hv) (hkeys _ hw)).mpr⟩

end Memory

end KeyedQuery
