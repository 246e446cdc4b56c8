import KeyedQuery.Proofs.Store.Unique
import KeyedQuery.Proofs.Transaction.Commit
import KeyedQuery.Proofs.Transaction.Invariants

/-!
# Deletions

A transaction takes the key from the conditions of a delete and stages a write that drops it, whether or
not the row of the key satisfies the other conditions. Behind other writes, all to other rows, that write
is carried out if they are, and drops the row from the tables that they leave
(`Memory.transact_append_delete`). So what a commit leaves of the row is what the conditions say exactly
if the row satisfies all of them, or there is none (`Transaction.delete_commit_iff`).
-/

namespace KeyedQuery

/-! ## One more write -/

namespace Memory

variable {m next : Memory} {t : Table} {name : String} {key : Item} {writes : List Write}

theorem items_withTable (m : Memory) (name : String) (t : Table) (other : String) :
    (m.withTable name t).items other = if name = other then t.items else m.items other := by
  unfold items
  rw [show (m.withTable name t).tables = Fields.insert m.tables name t from rfl, Fields.get?_insert]
  split <;> rfl

theorem perform_transact (m : Memory) (writes : List Write) (token : String) :
    m.perform (.transact writes token) =
      m.commit ((m.transact writes).map fun changed => ((), changed)) :=
  rfl

/-- The writes of a transaction leave the tables their names and keys, and touch no other rows than
their own. -/
theorem foldlM_transactOne_touched : ∀ {writes : List Write} {m : Memory}
    {touched : List RowIdentity} {state : Fields Table × List RowIdentity},
    writes.foldlM transactOne (m.tables, touched) = .ok state →
    (∀ name t, Fields.get? m.tables name = some t →
      ∃ t', Fields.get? state.1 name = some t' ∧ t'.keys = t.keys) ∧
    ∀ i ∈ state.2, i ∈ touched ∨ ∃ w ∈ writes, i ∈ w.identity? m.tables
  | [], m, touched, state, hfold => by
    obtain rfl := Except.ok.inj hfold
    exact ⟨fun name t ht => ⟨t, ht, rfl⟩, fun i hi => .inl hi⟩
  | w :: writes, m, touched, state, hfold => by
    rw [List.foldlM_cons] at hfold
    obtain ⟨first, hone, hrest⟩ := exists_of_bind_eq_ok hfold
    obtain ⟨u, u', hu, -, happly, rfl⟩ := transactOne_eq_ok_iff.mp hone
    have hkeys := keys_of_applyWrite happly
    obtain ⟨htables, htouched⟩ := foldlM_transactOne_touched (m := m.withTable w.table u') hrest
    constructor
    · intro name t ht
      by_cases hname : w.table = name
      · subst hname
        obtain rfl := Option.some.inj (hu.symm.trans ht)
        obtain ⟨t', ht', heq⟩ := htables w.table u' (Fields.get?_insert_self _ _ _)
        exact ⟨t', ht', heq.trans hkeys⟩
      · exact htables name t ((Fields.get?_insert_of_ne _ _ hname).trans ht)
    · intro i hi
      rcases htouched i hi with hi | ⟨v, hv, hi⟩
      · rcases List.mem_cons.mp hi with rfl | hi
        · exact .inr ⟨w, List.mem_cons_self, Option.map_eq_some_iff.mpr ⟨u, hu, rfl⟩⟩
        · exact .inl hi
      · rw [identity?_withTable hu hkeys] at hi
        exact .inr ⟨v, List.mem_cons_of_mem w hv, hi⟩

/-- Rows of known tables that are put or dropped once each are put and dropped. -/
theorem exists_foldlM_transactOne : ∀ {writes : List Write} {m : Memory}
    (touched : List RowIdentity),
    (∀ w ∈ writes, w.isUpdate = false ∧ (w.identity? m.tables).isSome ∧
      ∀ i ∈ w.identity? m.tables, i ∉ touched) →
    (writes.Pairwise fun v w => ∀ i ∈ v.identity? m.tables, i ∉ w.identity? m.tables) →
    ∃ state, writes.foldlM transactOne (m.tables, touched) = .ok state
  | [], _, touched, _, _ => ⟨_, rfl⟩
  | w :: writes, m, touched, hwrites, hapart => by
    obtain ⟨hw, hrest⟩ := List.pairwise_cons.mp hapart
    obtain ⟨⟨hupdate, hsome, hfresh⟩, hothers⟩ := List.forall_mem_cons.mp hwrites
    obtain ⟨i, hi⟩ := Option.isSome_iff_exists.mp hsome
    obtain ⟨t, ht, rfl⟩ := Option.map_eq_some_iff.mp hi
    obtain ⟨t', happly⟩ : ∃ t', applyWrite t w = .ok t' := by
      cases w with
      | put table item => exact ⟨_, rfl⟩
      | delete table key => exact ⟨_, rfl⟩
      | update table key expression attributes => cases hupdate
    have hidentity := identity?_withTable ht (keys_of_applyWrite happly)
    have hone := transactOne_eq_ok_iff.mpr ⟨t, t', ht, hfresh _ hi, happly, rfl⟩
    have hmore : ∀ v ∈ writes, v.isUpdate = false ∧
        (v.identity? (m.withTable w.table t').tables).isSome ∧
        ∀ i ∈ v.identity? (m.withTable w.table t').tables, i ∉ identity t w :: touched := by
      intro v hv
      obtain ⟨hvupdate, hvsome, hvfresh⟩ := hothers v hv
      rw [hidentity]
      refine ⟨hvupdate, hvsome, fun j hj hmem => ?_⟩
      rcases List.mem_cons.mp hmem with rfl | hmem
      · exact hw v hv _ hi hj
      · exact hvfresh j hj hmem
    obtain ⟨state, hfold⟩ := exists_foldlM_transactOne (m := m.withTable w.table t') _ hmore
      (by simpa only [hidentity] using hrest)
    exact ⟨state, by rw [List.foldlM_cons, hone]; exact hfold⟩

/-- Dropping a key behind writes to other rows succeeds if they do, and leaves the rows without the key of
those that they leave. -/
theorem transact_append_delete (hunique : m.Unique) (ht : Fields.get? m.tables name = some t)
    (hkey : t.IsKey key) (hlength : writes.length < maxTransactionWrites)
    (hfresh : ∀ w ∈ writes, ∀ i ∈ w.identity? m.tables,
      i ∉ (Write.delete name key).identity? m.tables) :
    (∀ fault, m.transact writes = .error fault →
      m.transact (writes ++ [.delete name key]) = .error fault) ∧
    ∀ next, m.transact writes = .ok next → ∃ after : Memory,
      m.transact (writes ++ [.delete name key]) = .ok after ∧ ∀ other,
        after.items other = if name = other then
          (next.items other).filter fun row => !row.hasKey key else next.items other := by
  have hlength' : ¬maxTransactionWrites < (writes ++ [Write.delete name key]).length := by
    rw [List.length_append, List.length_singleton]
    omega
  unfold transact
  rw [if_neg (Nat.not_lt.mpr (Nat.le_of_lt hlength)), if_neg hlength', List.foldlM_append]
  cases hfold : writes.foldlM transactOne (m.tables, []) with
  | error fault => exact ⟨fun _ hfault => hfault, nofun⟩
  | ok state =>
    refine ⟨nofun, fun next hnext => ?_⟩
    obtain rfl := Except.ok.inj hnext
    obtain ⟨htables, htouched⟩ := foldlM_transactOne_touched hfold
    obtain ⟨t', ht', hkeys⟩ := htables name t ht
    have hdelete : identity t' (.delete name key) = identity t (.delete name key) := by
      rw [identity, identity, Table.keyOf_congr hkeys]
    have hnot : identity t' (.delete name key) ∉ state.2 := by
      intro hmem
      rcases htouched _ hmem with hmem | ⟨w, hw, hmem⟩
      · exact absurd hmem List.not_mem_nil
      · exact hfresh w hw _ hmem (Option.map_eq_some_iff.mpr ⟨t, ht, hdelete.symm⟩)
    have hone : transactOne state (.delete name key) = .ok
        (Fields.insert state.1 name (t'.remove key), identity t' (.delete name key) :: state.2) :=
      transactOne_eq_ok_iff.mpr ⟨t', _, ht', hnot, rfl, rfl⟩
    have hunique' : t'.Unique := hunique.foldlM_transactOne hfold name t' ht'
    refine ⟨withTable { m with tables := state.1 } name (t'.remove key), ?_, fun other => ?_⟩
    · show Except.map _ ([Write.delete name key].foldlM transactOne state) = _
      rw [List.foldlM_cons, hone]
      rfl
    · rw [items_withTable, hunique'.items_remove (hkey.congr hkeys.symm)]
      split
      · rename_i hname
        rw [← hname, items, ht']
        rfl
      · rfl

end Memory

/-! ## Staged deletions -/

namespace Transaction

variable {db : Database} {tables : Fields Table} {tx : Transaction} {model : String}
  {conditions : List Condition} {g : Target}

/-- No buffered write is to the target row. -/
def Target.Unwritten (g : Target) (tx : Transaction) : Prop :=
  ∀ v ∈ tx.buffer.writes, v.table = g.table → v.targets g.key = false

instance (g : Target) (tx : Transaction) : Decidable (g.Unwritten tx) :=
  inferInstanceAs (Decidable (∀ v ∈ tx.buffer.writes, v.table = g.table → v.targets g.key = false))

theorem Target.Unwritten.not_sameRow (h : g.Unwritten tx) (hrows : tx.buffer.OnePerRow tables)
    (hplace : g.place.IsKeyed tables) {v : Write} (hv : v ∈ tx.buffer.writes) :
    ¬(v.place tables).SameRow g.place := by
  intro hsame
  obtain ⟨htable, htargets⟩ := ((hrows.keyed v hv).targets_iff hplace).mpr hsame
  exact Bool.eq_false_iff.mp (h v hv htable) htargets

/-- If the row has no write and there is room for one, a delete puts the drop of the key behind the
others. -/
theorem delete_eq (h : tx.buffer.OnePerRow tables) (hplace : g.place.IsKeyed tables)
    (hg : target db model conditions = .ok g) (hunwritten : g.Unwritten tx)
    (hroom : tx.buffer.writes.length < maxTransactionWrites) :
    ∃ updates, tx.delete db model conditions = .ok
      ⟨{ tx.buffer with writes := tx.buffer.writes ++ [.delete g.table g.key] }, updates⟩ := by
  have hposition : tx.buffer.position? g.table g.key = none := by
    rcases h.position?_cases hplace with ⟨before, w, after, hwrites, hsame, -⟩ | ⟨-, hposition⟩
    · have hmem : w ∈ tx.buffer.writes := hwrites ▸ List.mem_append_right before List.mem_cons_self
      exact absurd hsame (hunwritten.not_sameRow h hplace hmem)
    · exact hposition
  refine ⟨Fields.erase tx.updates g.id, ?_⟩
  unfold delete WriteBuffer.stage WriteBuffer.add
  simp only [hg, h.requireActive, Write.table, hposition, if_neg (Nat.not_le.mpr hroom), bind,
    Except.bind]

/-- Rows that a transaction only puts and drops are put and dropped when the store carries it out. -/
theorem exists_transact {m : Memory} (h : tx.buffer.OnePerRow m.tables)
    (hupdates : ∀ v ∈ tx.buffer.writes, v.isUpdate = false) :
    ∃ next, m.transact tx.buffer.writes = .ok next := by
  have hwrites : ∀ v ∈ tx.buffer.writes, v.isUpdate = false ∧ (v.identity? m.tables).isSome ∧
      ∀ i ∈ v.identity? m.tables, i ∉ ([] : List Memory.RowIdentity) := by
    intro v hv
    obtain ⟨t, ht, -⟩ := h.keyed v hv
    exact ⟨hupdates v hv, by rw [Write.identity?, ht]; rfl, fun _ _ => List.not_mem_nil⟩
  obtain ⟨state, hfold⟩ := Memory.exists_foldlM_transactOne [] hwrites
    (h.apart.imp_of_mem fun hv hu => (h.keyed _ hv).identity?_apart (h.keyed _ hu))
  refine ⟨{ m with tables := state.1 }, ?_⟩
  rw [Memory.transact, if_neg (Nat.not_lt.mpr h.length_le), hfold]
  rfl

/-- What is left of rows without those of a key is what conditions leave of the first one exactly if it
satisfies them. -/
theorem find?_filter_eq_iff {rows : List Item} {key : Item} {found : Option Item}
    {matching : Item → Bool} :
    ((rows.filter fun row => !row.hasKey key).find? fun row => row.hasKey key) =
        (found.filter fun row => !matching row) ↔ ∀ row ∈ found, matching row = true := by
  have hnone : ((rows.filter fun row => !row.hasKey key).find? fun row => row.hasKey key) = none :=
    List.find?_eq_none.mpr fun row hrow => by simpa using (List.mem_filter.mp hrow).2
  rw [hnone, eq_comm]
  cases found <;> simp [Option.filter]

/-- A delete of a row that the transaction has not written drops the row that the conditions fix when it is
committed, whether or not that row satisfies the other conditions. With it the commit ends as it would
without it, and leaves the tables that it would leave, without that row. So what is left of the stored row
is what the conditions say exactly if it satisfies all of them, or there is none. -/
theorem delete_commit_iff {s : Schema} (hs : s.TablesApart) {w : World Memory}
    (hstore : w.store.IsOf s) (hunique : w.store.Unique)
    (hfailures : ∀ f ∈ w.store.failures, f.1 ≠ .transaction) (hdb : db.resolver = s.resolver)
    {σ : Type} (client : Client σ) (world : World σ) (calls : List Call)
    (hg : target db model conditions = .ok g)
    (hunwritten : g.Unwritten (ofCalls db client world calls))
    (hroom : (ofCalls db client world calls).buffer.writes.length < maxTransactionWrites) :
    let tx := ofCalls db client world calls
    let stored := (w.store.items g.table).find? fun row => row.hasKey g.key
    ∃ tx', tx.delete db model conditions = .ok tx' ∧ ∀ token,
      let plain := (tx.commit db token).run.run Memory.receive w
      let after := (tx'.commit db token).run.run Memory.receive w
      after.1 = plain.1 ∧
        ((∀ v ∈ tx.buffer.writes, v.isUpdate = false) → after.1 = .ok ()) ∧
        (after.1 = .ok () →
          (∀ name, after.2.store.items name = if g.table = name then
            (plain.2.store.items name).filter fun row => !row.hasKey g.key
            else plain.2.store.items name) ∧
          (((after.2.store.items g.table).find? fun row => row.hasKey g.key) =
              (stored.filter fun row => !matchesAll g.conditions row) ↔
            ∀ row ∈ stored, matchesAll g.conditions row = true)) := by
  intro tx stored
  have hkeys := Database.keysIn hs hstore hdb
  have hrows : tx.buffer.OnePerRow w.store.tables :=
    ((keeps_empty w.store.tables (calls.filterMap (Call.place? db))).afterCalls hkeys client
      fun call hcall p hp => List.mem_filterMap.mpr ⟨call, hcall, hp⟩).onePerRow
  obtain ⟨t, ht, -, hkey⟩ := Target.isKeyed hkeys hg
  have hplace : g.place.IsKeyed w.store.tables := ⟨t, ht, hkey⟩
  obtain ⟨hdelete, hdropped⟩ := isKeyed_of_row (w := .delete g.table g.key) ht hkey rfl rfl
  obtain ⟨updates, hstaged⟩ := delete_eq hrows hplace hg hunwritten hroom
  refine ⟨_, hstaged, fun token => ?_⟩
  have hfresh : ∀ v ∈ tx.buffer.writes, ∀ i ∈ v.identity? w.store.tables,
      i ∉ (Write.delete g.table g.key).identity? w.store.tables := fun v hv =>
    (hrows.keyed v hv).identity?_apart hdelete
      (hdropped ▸ hunwritten.not_sameRow hrows hplace hv)
  obtain ⟨herror, hok⟩ := Memory.transact_append_delete hunique ht hkey hroom hfresh
  obtain ⟨plain, hplain, hrunPlain⟩ :=
    exists_run_commit tx hrows.requireActive hfailures db token
  obtain ⟨after, hafter, hrunAfter⟩ :=
    exists_run_commit ⟨{ tx.buffer with writes := tx.buffer.writes ++ [_] }, updates⟩
      hrows.requireActive hfailures db token
  dsimp only
  rw [hrunPlain, hrunAfter]
  rw [Memory.perform_transact] at hplain hafter ⊢
  cases htransact : w.store.transact tx.buffer.writes with
  | error fault =>
    rw [Memory.perform_transact, herror fault htransact, htransact]
    refine ⟨rfl, fun hupdates => ?_, nofun⟩
    obtain ⟨next, hnext⟩ := exists_transact hrows hupdates
    rw [htransact] at hnext
    cases hnext
  | ok next =>
    obtain ⟨final, hfinal, hitems⟩ := hok next htransact
    rw [htransact] at hplain
    rw [hfinal] at hafter
    rw [Memory.perform_transact, hfinal, htransact]
    obtain rfl : after.store = final := hafter
    obtain rfl : plain.store = next := hplain
    refine ⟨rfl, fun _ => rfl, fun _ => ⟨hitems, ?_⟩⟩
    rw [hitems, if_pos rfl]
    exact find?_filter_eq_iff

/-- A user is dropped by its number and name behind one that is created. -/
theorem delete_commit_iff_users :
    let user : ModelDef := { name := "user", table := "users", primaryKey := { partition := "id" } }
    let row (id : Int) (name : String) : Item := [("id", .num (.int id)), ("name", .str name)]
    let store := (Memory.ofSchema (.ofModels [user]) none).seed "users"
      [.map (row 1 "ada"), .map (row 2 "bob")]
    let db : Database := { resolver := (Schema.ofModels [user]).resolver }
    let tx := ofCalls db Memory.receive { store } [.create "user" (row 3 "eve")]
    let conditions : List Condition :=
      [⟨"id", none, .num (.int 1), none⟩, ⟨"name", none, .str "ada", none⟩]
    ∃ tx', tx.delete db "user" conditions = .ok tx' ∧
      ((tx'.commit db "token").run.run Memory.receive { store }).1 = .ok () ∧
      ((tx'.commit db "token").run.run Memory.receive { store }).2.store.items "users" =
        [row 2 "bob", row 3 "eve"] := by
  intro user row store db tx conditions
  have hstore : store.IsOf (.ofModels [user]) := (Memory.isOf_ofSchema _ _).seed _ _
  have hunique : store.Unique := (Memory.unique_ofSchema _ _).seed _ _
  have hresolver : db.resolver = (Schema.ofModels [user]).resolver := rfl
  have hg : target db "user" conditions = .ok
      { table := "users", keys := { partition := "id" }
        conditions := [⟨"id", .eq, .num (.int 1), .and, false⟩, ⟨"name", .eq, .str "ada", .and, false⟩]
        key := [("id", .num (.int 1))] } :=
    rfl
  obtain ⟨tx', hdelete, hcommit⟩ := delete_commit_iff (by unfold Schema.TablesApart; decide +kernel)
    (w := { store }) hstore hunique (fun _ hmem => nomatch hmem) hresolver Memory.receive { store }
    [.create "user" (row 3 "eve")] hg (by decide +kernel) (by decide +kernel)
  obtain ⟨-, hok, hitems⟩ := hcommit "token"
  have hok := hok (by decide +kernel)
  refine ⟨tx', hdelete, hok, ?_⟩
  rw [(hitems hok).1 "users"]
  decide +kernel

/-- User 1 is called ada. A delete of user 1 called bob is committed and drops the row, where the same
conditions are those of no row for a delete outside, and for an update inside. -/
theorem not_delete_commit :
    let user : ModelDef := { name := "user", table := "users", primaryKey := { partition := "id" } }
    let store := (Memory.ofSchema (.ofModels [user]) none).seed "users"
      [.map [("id", .num (.int 1)), ("name", .str "ada")]]
    let db : Database := ⟨(Schema.ofModels [user]).resolver, {}, 1⟩
    let conditions : List Condition :=
      [⟨"id", none, .num (.int 1), none⟩, ⟨"name", none, .str "bob", none⟩]
    let tx : Transaction := { buffer := { writes := [.delete "users" [("id", .num (.int 1))]] } }
    let committed := (tx.commit db "token").run.run Memory.receive { store }
    delete db {} "user" conditions = .ok tx ∧
      committed.1 = .ok () ∧ committed.2.store.items "users" = [] ∧
      ((db.delete "user" conditions).run.run Memory.receive { store }).1 = .ok 0 ∧
      ((update db {} "user" conditions [("name", .str "eve")]).run.run Memory.receive { store }).1 =
        .ok (none, {}) := by
  decide +kernel

end Transaction

end KeyedQuery
