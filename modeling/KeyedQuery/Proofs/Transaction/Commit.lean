import KeyedQuery.Proofs.Store.Failures
import KeyedQuery.Proofs.Transaction.Sessions

/-!
# Committing

The writes of a transaction that is in step with the tables are to different rows, so the store carries
them out one after another, and each of them leaves at its place what the transaction sees there
(`Transaction.Tracks.foldlM_transactOne`). After a commit the tables of the store hold what the
transaction has seen (`Transaction.Tracks.run_commit`). So transactions of calls by key amount to the
calls themselves (`Session.amounts_to_calls`).
-/

namespace KeyedQuery

open Transaction

/-! ## The request of a commit -/

/-- In a store without failures for transactions a commit ends as its writes are carried out. -/
theorem Transaction.exists_run_commit (tx : Transaction) {w : World Memory}
    (hactive : tx.buffer.requireActive = .ok ())
    (hfailures : ∀ f ∈ w.store.failures, f.1 ≠ .transaction) (db : Database) (token : String) :
    ∃ final : World Memory,
      final.store = (w.store.perform (.transact tx.buffer.writes token)).2 ∧
      (tx.commit db token).run.run Memory.receive w =
        ((w.store.perform (.transact tx.buffer.writes token)).1.mapError .store, final) := by
  have hcommit : (tx.commit db token).run.run Memory.receive w =
      ((((tx.buffer.commit db.config.retry token).run Memory.receive w).1).1,
        ((tx.buffer.commit db.config.retry token).run Memory.receive w).2) :=
    Dialogue.run_map _ _ w
  rw [hcommit]
  unfold WriteBuffer.commit
  rw [hactive]
  dsimp only
  split
  · rename_i hempty
    rw [List.isEmpty_iff.mp hempty]
    exact ⟨w, rfl, rfl⟩
  · obtain ⟨next, hstore, hrequest⟩ := Memory.run_request db.config.retry
      (r := .transact tx.buffer.writes token) hfailures
    rw [Dialogue.run_bind, hrequest]
    cases (w.store.perform (.transact tx.buffer.writes token)).1 with
    | ok _ => exact ⟨next.count .transactionsCommitted 1, hstore, rfl⟩
    | error fault => exact ⟨next, hstore, rfl⟩

/-! ## Writes one after another -/

variable {tables current : Fields Table} {p : Place} {w : Write} {row : Option Item}

/-- Carried out on the tables, the write leaves the row at the place. -/
def Write.Yields (tables : Fields Table) (p : Place) (row : Option Item) : Write → Prop
  | .put _ item => row = some item
  | .update _ _ expression attributes => ∃ old next, p.stored? tables = some old ∧
    Item.update attributes expression old = .ok next ∧ row = some next
  | .delete _ _ => row = none

theorem Write.Yields.congr (h : w.Yields tables p row)
    (hstored : p.stored? current = p.stored? tables) : w.Yields current p row := by
  cases w with
  | put _ _ => exact h
  | delete _ _ => exact h
  | update _ _ _ _ =>
    obtain ⟨old, next, hold, hnext⟩ := h
    exact ⟨old, next, hstored.trans hold, hnext⟩

/-- A write to a place that has not been written sets the row there. -/
theorem Write.Fits.transactOne_eq (hw : w.Fits tables) (hlayout : SameLayout tables current)
    (hplace : w.place tables = p) (hyields : w.Yields current p row)
    {touched : List Memory.RowIdentity} (hfresh : p.identity ∉ touched) :
    Memory.transactOne (current, touched) w = .ok (p.set current row, p.identity :: touched) := by
  obtain ⟨t, ht, hparts, hkey⟩ := hw
  obtain ⟨u, hu, hkeys, -⟩ := hlayout.exists_table ht
  have hidentity : Memory.identity u w = p.identity := by
    rw [← hplace, Write.place_eq ht, Memory.identity, Table.keyOf_congr hkeys.symm]
    rfl
  have htable : p.table = w.table := by rw [← hplace]; rfl
  unfold Memory.transactOne
  dsimp only
  rw [hu]
  dsimp only
  rw [hidentity, if_neg hfresh]
  suffices hwrite : ∃ u', Memory.applyWrite u w = .ok u' ∧
      p.set current row = Fields.insert current w.table u' by
    obtain ⟨u', happly, hset⟩ := hwrite
    rw [happly, hset]
    rfl
  cases w with
  | put name item =>
    obtain rfl : row = some item := hyields
    exact ⟨_, rfl, by rw [Place.set, htable, changeTable_eq hu]⟩
  | delete name key =>
    obtain rfl : row = none := hyields
    have hpkey : p.key = key := by
      rw [← hplace, Write.place_eq ht]
      exact (hkey rfl).keyOf_eq
    exact ⟨_, rfl, by rw [Place.set, htable, changeTable_eq hu, hpkey]⟩
  | update name key expression attributes =>
    obtain ⟨old, next, hold, hnext, rfl⟩ := hyields
    have hpkey : p.key = key := by
      rw [← hplace, Write.place_eq ht]
      exact (hkey rfl).keyOf_eq
    rw [Place.stored?, htable, hu, Option.bind_some, hpkey] at hold
    refine ⟨u.upsert next, ?_, by rw [Place.set, htable, changeTable_eq hu]⟩
    have hupdate : u.update key expression attributes = .ok (next, u.upsert next) := by
      unfold Table.update
      rw [hold, Option.getD_some, hnext]
      rfl
    rw [Memory.applyWrite, hupdate]

/-- Writes to different places set the rows at these places. -/
theorem foldlM_transactOne {rowOf : Place → Option Item} :
    ∀ {ws : List Write} {current : Fields Table} {touched : List Memory.RowIdentity},
      SameLayout tables current → TablesKeyed current →
      (∀ w ∈ ws, w.Fits tables ∧ (w.place tables).identity ∉ touched ∧
        w.Yields current (w.place tables) (rowOf (w.place tables)) ∧
        ∀ item, rowOf (w.place tables) = some item → (w.place tables).Holds tables item) →
      (ws.map (Write.place tables)).Nodup →
      ∃ after touched', ws.foldlM Memory.transactOne (current, touched) = .ok (after, touched') ∧
        SameLayout tables after ∧ TablesKeyed after ∧
        ∀ q : Place, q.IsIn tables → q.stored? after =
          if q ∈ ws.map (Write.place tables) then rowOf q else q.stored? current
  | [], current, touched, hlayout, hkeyed, _, _ =>
    ⟨current, touched, rfl, hlayout, hkeyed, fun q _ => by simp⟩
  | w :: ws, current, touched, hlayout, hkeyed, hws, hnodup => by
    obtain ⟨hw, hfresh, hyields, hholds⟩ := hws w List.mem_cons_self
    obtain ⟨hnot, hnodup⟩ := List.nodup_cons.mp hnodup
    have hp := hlayout.isIn hw.isIn
    have hstored : ∀ q : Place, q.IsIn tables →
        q.stored? ((w.place tables).set current (rowOf (w.place tables))) =
          if q = w.place tables then rowOf (w.place tables) else q.stored? current := fun q hq =>
      Place.stored?_set hkeyed hp (fun item hitem => hlayout.holds (hholds item hitem))
        (hlayout.isIn hq)
    have hne : ∀ v ∈ ws, v.place tables ≠ w.place tables := fun v hv heq =>
      hnot (heq ▸ List.mem_map_of_mem hv)
    have hrest : ∀ v ∈ ws, v.Fits tables ∧
        (v.place tables).identity ∉ (w.place tables).identity :: touched ∧
        v.Yields ((w.place tables).set current (rowOf (w.place tables))) (v.place tables)
          (rowOf (v.place tables)) ∧
        ∀ item, rowOf (v.place tables) = some item → (v.place tables).Holds tables item := by
      intro v hv
      obtain ⟨hv', hfresh', hyields', hholds'⟩ := hws v (List.mem_cons_of_mem w hv)
      refine ⟨hv', ?_, hyields'.congr ?_, hholds'⟩
      · rw [List.mem_cons, not_or]
        exact ⟨fun heq => hne v hv (hv'.isIn.eq_of_identity_eq hw.isIn heq), hfresh'⟩
      · rw [hstored _ hv'.isIn, if_neg (hne v hv)]
    obtain ⟨after, touched', hfold, hlayout', hkeyed', hafter⟩ := foldlM_transactOne
      (hlayout.trans (Place.sameLayout_set _ _ _).symm)
      (hkeyed.set hp fun item hitem => hlayout.holds (hholds item hitem)) hrest hnodup
    refine ⟨after, touched', ?_, hlayout', hkeyed', fun q hq => ?_⟩
    · rw [List.foldlM_cons, hw.transactOne_eq hlayout rfl hyields hfresh]
      exact hfold
    · rw [hafter q hq, hstored q hq, List.map_cons]
      by_cases hq' : q = w.place tables
      · rw [hq', if_neg hnot, if_pos rfl, if_pos List.mem_cons_self]
      · simp [hq']

namespace Transaction.Tracks

variable {tx : Transaction} {updates : Fields StagedUpdate}

/-- Each buffered write yields what the transaction sees at its place. -/
theorem yields_rowAt (h : Tracks tables tx) (hp : p.IsIn tables)
    (hstored : ∀ item, p.stored? tables = some item → item.Patchable)
    (hrow : ∀ item, tx.rowAt tables p = some item → item.Patchable)
    (hwrite : tx.buffer.write? p = some w) : w.Yields tables p (tx.rowAt tables p) := by
  have hagrees := h.agrees p hp
  rw [hwrite] at hagrees
  rw [rowAt_of_write? hwrite] at hrow ⊢
  cases w with
  | put _ _ => rfl
  | delete _ _ => rfl
  | update name key expression attributes =>
    obtain ⟨u, hu, hstands⟩ := hagrees
    rw [rowAfter, hu, Option.map_some] at hrow ⊢
    have hcurrent := hstored _ hstands.stored
    have hne : u.current ≠ u.next := by
      intro heq
      have hbetween := hstands.between
      rw [← heq, Patch.between_self hcurrent] at hbetween
      cases hbetween
    obtain ⟨patch, hpatch, hupdate⟩ := Patch.exists_between hcurrent (hrow _ rfl) hne
    obtain rfl := Except.ok.inj (hpatch.symm.trans hstands.between)
    exact ⟨_, _, hstands.stored, hupdate, rfl⟩

/-- The store carries all buffered writes out, and holds what the transaction has seen. -/
theorem transact (h : Tracks tables tx) (htables : TablesKeyed tables)
    (hpatchable : ∀ (p : Place) item, p.IsIn tables →
      p.stored? tables = some item ∨ tx.rowAt tables p = some item → item.Patchable)
    {m : Memory} (hm : m.tables = tables) :
    ∃ after, m.transact tx.buffer.writes = .ok { m with tables := after } ∧
      SameLayout tables after ∧ TablesKeyed after ∧
      ∀ p : Place, p.IsIn tables → p.stored? after = tx.rowAt tables p := by
  have hwrites : ∀ w ∈ tx.buffer.writes, w.Fits tables ∧ (w.place tables).identity ∉ [] ∧
      w.Yields tables (w.place tables) (tx.rowAt tables (w.place tables)) ∧
      ∀ item, tx.rowAt tables (w.place tables) = some item →
        (w.place tables).Holds tables item := by
    intro w hw
    have hp := (h.sound.fits w hw).isIn
    have hwrite := (h.sound.write?_eq_some_iff hp).mpr ⟨hw, rfl⟩
    exact ⟨h.sound.fits w hw, by simp,
      h.yields_rowAt hp (fun item hitem => hpatchable _ item hp (.inl hitem))
        (fun item hitem => hpatchable _ item hp (.inr hitem)) hwrite,
      fun item hitem => h.holds_rowAt htables hp hitem⟩
  obtain ⟨after, touched, hfold, hlayout, hkeyed, hafter⟩ :=
    foldlM_transactOne (SameLayout.refl tables) htables hwrites h.sound.apart
  refine ⟨after, ?_, hlayout, hkeyed, fun p hp => ?_⟩
  · unfold Memory.transact
    rw [if_neg (Nat.not_lt.mpr h.sound.length_le), hm, hfold]
    rfl
  · rw [hafter p hp]
    split
    · rfl
    · rename_i hnot
      refine (rowAt_of_unwritten ((h.sound.write?_eq_none_iff hp).mpr ?_)).symm
      exact fun w hw heq => hnot (heq ▸ List.mem_map_of_mem hw)

/-- A commit in a calm store succeeds, and the store holds what the transaction has seen. -/
theorem run_commit (h : Tracks tables tx) (htables : TablesKeyed tables)
    (hpatchable : ∀ (p : Place) item, p.IsIn tables →
      p.stored? tables = some item ∨ tx.rowAt tables p = some item → item.Patchable)
    {pageSize : Option Nat} {world : World Memory}
    (hworld : Memory.Holds tables pageSize True world.store) (db : Database) (token : String) :
    ((tx.commit db token).run.run Memory.receive world).1 = .ok () ∧
      SameLayout tables ((tx.commit db token).run.run Memory.receive world).2.store.tables ∧
      TablesKeyed ((tx.commit db token).run.run Memory.receive world).2.store.tables ∧
      ∀ p : Place, p.IsIn tables →
        p.stored? ((tx.commit db token).run.run Memory.receive world).2.store.tables =
          tx.rowAt tables p := by
  obtain ⟨after, htransact, hlayout, hkeyed, hafter⟩ := h.transact htables hpatchable
    hworld.tables_eq
  obtain ⟨final, hstore, hrun⟩ := exists_run_commit tx (w := world)
    h.sound.requireActive (by simp [hworld.failures_eq trivial]) db token
  have hperform : world.store.perform (.transact tx.buffer.writes token) =
      (.ok (), { world.store with tables := after }) := by
    show world.store.commit ((world.store.transact tx.buffer.writes).map _) = _
    rw [htransact]
    rfl
  rw [hperform] at hstore hrun
  have hfinal : final.store.tables = after := congrArg Memory.tables hstore
  rw [hrun, hfinal]
  exact ⟨rfl, hlayout, hkeyed, hafter⟩

end Transaction.Tracks

/-! ## Sessions of calls by key -/

/-- In a calm store of a schema, calls by key through a transaction amount to the calls themselves.
After any of them the transaction reads by key what the accepted calls would have left, and its
commit leaves in every table the rows that they would have left. -/
theorem Session.amounts_to_calls {s : Schema} (hs : s.TablesApart) {w : World Memory}
    (hstore : w.store.IsOf s) (hkeyed : TablesKeyed w.store.tables)
    (hpatchable : ∀ name, ∀ item ∈ w.store.items name, item.Patchable) (hcalm : w.store.IsCalm)
    {db : Database} (hdb : db.resolver = s.resolver) {calls : List Call}
    (hcalls : ∀ call ∈ calls, call.ByKey db) :
    let session := Session.run db { world := w } calls
    let reference := session.reference db w.store.tables
    (∀ (q : FindQuery) g, q.IsPlain → target db q.model q.conditions = .ok g →
      FixesKey g.keys g.conditions → (∀ field ∈ g.key, field.2.IsKeyPart) →
      ((session.tx.findOne db q).run.run Memory.receive session.world).1 =
        .ok ((Fields.get? reference g.table).bind fun t => t.find? g.key)) ∧
    ∀ token, ((session.tx.commit db token).run.run Memory.receive session.world).1 = .ok () ∧
      SameRows ((session.tx.commit db token).run.run Memory.receive session.world).2.store.tables
        reference := by
  intro session reference
  have hlies := Database.liesIn hs hstore hkeyed.wellKeyed hdb
  have hstored : ∀ (p : Place) item, p.IsIn w.store.tables →
      p.stored? w.store.tables = some item → item.Patchable := by
    intro p item hp hitem
    have ⟨t, ht, _⟩ := hp
    have hmem := ((hkeyed.stored?_eq_some_iff ht).mp ⟨hp, hitem⟩).1
    exact hpatchable p.table item (Memory.mem_items_iff.mpr ⟨t, ht, hmem⟩)
  have hempty : Session.Follows w.store.tables w.store.pageSize True { world := w } :=
    ⟨⟨rfl, rfl, fun _ => hcalm.failures_eq, fun _ => hcalm.rounds_eq⟩, tracks_empty _⟩
  have hfollows : session.Follows w.store.tables w.store.pageSize True :=
    follows_run hkeyed hlies hstore.pageSize_ne hempty fun call hcall => (hcalls call hcall).regular
  have hmirrors : session.Mirrors db w.store.tables :=
    mirrors_run hkeyed hlies hstore.pageSize_ne hempty
      ⟨SameLayout.refl _, hkeyed, hstored, fun p _ => rfl⟩ hcalls
  constructor
  · intro q g hplain hg hfixes hparts
    obtain ⟨-, -, -, -, hp⟩ := g.isIn hlies hg hparts
    rw [hfollows.tracks.run_findOne_key hkeyed hlies hstore.pageSize_ne hfollows.holds hplain hg
      hfixes hparts, hmirrors.rowAt_eq g.place hp]
    rfl
  · intro token
    obtain ⟨hok, hlayout, hkeyed', hafter⟩ := hfollows.tracks.run_commit hkeyed
      (fun p item hp hitem => hitem.elim (hstored p item hp) fun hrow =>
        hmirrors.patchable p item hp ((hmirrors.rowAt_eq p hp).symm.trans hrow))
      hfollows.holds db token
    refine ⟨hok, hkeyed'.sameRows hmirrors.keyed (hlayout.symm.trans hmirrors.layout) fun p hp => ?_⟩
    have hp' := hlayout.symm.isIn hp
    rw [hafter p hp', hmirrors.rowAt_eq p hp']

/-- A row is updated twice, another one is deleted, and a third one is created. -/
theorem Session.amounts_to_calls_users :
    let user : ModelDef := { name := "user", table := "users", primaryKey := { partition := "id" } }
    let store := (Memory.ofSchema (.ofModels [user]) none).seed "users"
      [.map [("id", .str "a"), ("n", .num (.int 1))], .map [("id", .str "b")]]
    let db : Database := { resolver := (Schema.ofModels [user]).resolver }
    let byId (id : String) : List Condition := [⟨"id", none, .str id, none⟩]
    let calls : List Call :=
      [.update "user" (byId "a") [("n", .num (.int 5))], .delete "user" (byId "b"),
        .create "user" [("id", .str "c")], .update "user" (byId "a") [("n", .num (.int 7))]]
    let session := Session.run db { world := { store } } calls
    let rows : List Item := [[("id", .str "a"), ("n", .num (.int 7))], [("id", .str "c")]]
    ((session.tx.findOne db { model := "user", conditions := byId "a" }).run.run Memory.receive
        session.world).1 = .ok (some [("id", .str "a"), ("n", .num (.int 7))]) ∧
      ((session.tx.commit db "token").run.run Memory.receive session.world).1 = .ok () ∧
      SameRows ((session.tx.commit db "token").run.run Memory.receive
        session.world).2.store.tables [("users", ⟨user.primaryKey, [], rows⟩)] := by
  intro user store db byId calls session rows
  have hstore : store.IsOf (.ofModels [user]) := (Memory.isOf_ofSchema _ _).seed _ _
  have hkeyed : TablesKeyed store.tables := .of_forall (by decide +kernel)
  have hitems : ∀ field ∈ store.tables, ∀ item ∈ field.2.items,
      Fields.Ordered item ∧ ∀ field ∈ item, field.2.IsKeyPart := by decide +kernel
  have hpatchable : ∀ name, ∀ item ∈ store.items name, item.Patchable :=
    Memory.items_of_forall fun field hfield item hitem =>
      Item.patchable_of_isKeyPart (hitems field hfield item hitem).1 (hitems field hfield item hitem).2
  have htarget : ∀ id, target db "user" (byId id) = .ok
      { table := "users", keys := { partition := "id" }
        conditions := [⟨"id", .eq, .str id, .and, false⟩], key := [("id", .str id)] } :=
    fun _ => rfl
  have hfixes : ∀ id, IsSlashFree id → Call.FixesPlace db "user" (byId id) := by
    intro id hid g hg
    obtain rfl := Except.ok.inj ((htarget id).symm.trans hg)
    refine ⟨⟨?_, ?_, ?_⟩, ?_⟩
    · simp [NormalizedCondition.isKeyEquality, Value.isNull]
    · simp
    · simp [KeySchema.attributes]
    · simpa [Value.IsKeyPart] using hid
  have hcalls : ∀ call ∈ calls, call.ByKey db := by
    intro call hcall
    simp only [calls, List.mem_cons, List.not_mem_nil, or_false] at hcall
    rcases hcall with rfl | rfl | rfl | rfl
    · exact ⟨hfixes "a" (by decide),
        Item.patchable_of_isKeyPart (by decide +kernel) (by decide +kernel)⟩
    · exact hfixes "b" (by decide)
    · intro table key item hrow
      have hnew : db.newRow "user" [("id", .str "c")] =
        .ok ("users", [("id", .str "c")], [("id", .str "c")]) := rfl
      obtain ⟨rfl, hpair⟩ := Prod.mk.inj (Except.ok.inj (hnew.symm.trans hrow))
      obtain ⟨rfl, rfl⟩ := Prod.mk.inj hpair
      exact ⟨by decide, Item.patchable_of_isKeyPart (by decide +kernel) (by decide +kernel)⟩
    · exact ⟨hfixes "a" (by decide),
        Item.patchable_of_isKeyPart (by decide +kernel) (by decide +kernel)⟩
  have hreference : session.reference db store.tables =
      [("users", ⟨user.primaryKey, [], rows⟩)] := by
    decide +kernel
  have hresolver : db.resolver = (Schema.ofModels [user]).resolver := rfl
  obtain ⟨hreads, hcommits⟩ := Session.amounts_to_calls
    (by unfold Schema.TablesApart; decide +kernel) (w := { store }) hstore hkeyed hpatchable
    ⟨rfl, rfl⟩ hresolver hcalls
  obtain ⟨hfixed, hparts⟩ := hfixes "a" (by decide) _ (htarget "a")
  have hread := hreads { model := "user", conditions := byId "a" } _ ⟨by decide, rfl, rfl, rfl, rfl⟩
    (htarget "a") hfixed hparts
  have hrow : (Fields.get? (session.reference db store.tables) "users").bind
      (fun t => t.find? [("id", .str "a")]) = some [("id", .str "a"), ("n", .num (.int 7))] := by
    decide +kernel
  have hcommit := hcommits "token"
  rw [hreference] at hcommit
  subst session
  exact ⟨hread.trans (congrArg Except.ok hrow), hcommit⟩

end KeyedQuery
