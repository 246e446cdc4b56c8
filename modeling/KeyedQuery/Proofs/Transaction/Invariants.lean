import KeyedQuery.Proofs.Transaction.Sessions
import KeyedQuery.Proofs.Transaction.Updates

/-!
# What calls keep

Whatever the store answers, a call that succeeds leaves the transaction as it was or stages one write
for the row of its key, and changes the record of staged rows with it (`Transaction.Outcome`,
`Transaction.ensures_outcome`). So calls in any number keep one write a row and at most as many as the
store takes, and the store has nothing to say against the request when they are committed
(`Transaction.ofCalls_writes`).

The record of staged rows goes by identifiers and the buffer by agreement of key values. The two are
of one mind as long as keys have one identifier exactly if they are keys of one row.
-/

namespace KeyedQuery

variable {σ : Type} {client : Client σ}

namespace Table

/-- A patch leaves a row its key. -/
theorem Carries.patched {t : Table} {item : Item} (h : t.Carries item) (patch : Item) :
    t.Carries (t.keys.patched item patch) := by
  intro k hk
  rw [get?_patched hk]
  exact h k hk

end Table

/-- Key values that are texts, truth values or integers told apart by their groups give keys of one
row one identifier. -/
theorem Place.SameRow.id_eq {tables : Fields Table} {p q : Place} (hp : p.IsKeyed tables)
    (hq : q.IsKeyed tables) (hpexact : ∀ field ∈ p.key, field.2.IsExact)
    (hqexact : ∀ field ∈ q.key, field.2.IsExact) (h : p.SameRow q) : p.id = q.id := by
  obtain ⟨htable, hpq, hqp⟩ := h
  obtain ⟨t, ht, hpkey⟩ := hp
  have hqkey := hq.isKey (htable ▸ ht)
  have hnames : ∀ {key : Item}, t.IsKey key → (∀ field ∈ key, field.2.IsExact) →
      t.NamesKey key := fun hkey hexact =>
    ⟨hkey.carries _ List.mem_cons_self, fun k _ v hv =>
      hexact (k, v) (Fields.mem_of_get?_eq_some hv)⟩
  have hagree : t.KeysAgree p.key q.key := ⟨hqkey.hasKey _ ▸ hpq, hpkey.hasKey _ ▸ hqp⟩
  have hgroups := (Table.groups_eq_iff (hnames hpkey hpexact) (hnames hqkey hqexact)).mpr hagree
  rw [hpkey.keyOf_eq, hqkey.keyOf_eq] at hgroups
  rw [id, id, Transaction.rowId, Transaction.rowId, htable, hgroups]

namespace Database

/-- Every model of the database lies on a known table and has its key. -/
def KeysIn (db : Database) (tables : Fields Table) : Prop :=
  ∀ model table keys, db.resolver.table model = .ok table →
    db.resolver.primaryKey model = .ok keys →
    ∃ t, Fields.get? tables table = some t ∧ t.keys = keys

theorem keysIn {db : Database} {s : Schema} (hs : s.TablesApart) {m : Memory} (hm : m.IsOf s)
    (hresolver : db.resolver = s.resolver) : db.KeysIn m.tables := by
  intro model table keys htable hkeys
  rw [hresolver] at htable hkeys
  cases hmodel : s.model? model with
  | none => simp [Schema.resolver, hmodel] at htable
  | some d =>
    obtain rfl := Except.ok.inj ((s.resolver_table hmodel).symm.trans htable)
    obtain rfl := Except.ok.inj ((s.resolver_primaryKey hmodel).symm.trans hkeys)
    obtain ⟨t, ht, hof⟩ := hm.exists_table hs hmodel
    exact ⟨t, ht, hof.keys_eq⟩

end Database

namespace Transaction

variable {db : Database} {tables : Fields Table} {tx tx' : Transaction} {p : Place}
  {model : String} {conditions : List Condition} {call : Call}

/-! ## What a call does -/

/-- The place of the row that a call is about. -/
def Call.place? (db : Database) (call : Call) : Option Place :=
  (call.effect? db).map Prod.fst

/-- What a call about a row makes of the transaction: nothing else, or it stages a write to the row. -/
inductive Outcome (tables : Fields Table) (tx : Transaction) (p : Place) : Transaction → Prop where
  /-- It stages nothing. -/
  | unchanged : Outcome tables tx p tx
  /-- It stages an update. -/
  | updated {w : Write} {b : WriteBuffer} (u : StagedUpdate) (hw : w.IsKeyed tables)
      (hplace : w.place tables = p) (hupdate : w.isUpdate = true)
      (hstage : tx.buffer.stage w p.key = .ok b) :
      Outcome tables tx p ⟨b, Fields.insert tx.updates p.id u⟩
  /-- It puts or deletes the row. -/
  | replaced {w : Write} {b : WriteBuffer} (hw : w.IsKeyed tables) (hplace : w.place tables = p)
      (hupdate : w.isUpdate = false) (hstage : tx.buffer.stage w p.key = .ok b) :
      Outcome tables tx p ⟨b, Fields.erase tx.updates p.id⟩
  /-- It puts the row that is already put once more. -/
  | rewritten {old w : Write} {b : WriteBuffer} (hold : old ∈ tx.buffer.writes)
      (hsame : (old.place tables).SameRow p) (hold' : old.isUpdate = false)
      (hw : w.IsKeyed tables) (hplace : w.place tables = old.place tables)
      (hupdate : w.isUpdate = false) (hstage : tx.buffer.stage w p.key = .ok b) :
      Outcome tables tx p ⟨b, tx.updates⟩

theorem Target.isKeyed (hkeys : db.KeysIn tables) {g : Target}
    (hg : target db model conditions = .ok g) :
    ∃ t, Fields.get? tables g.table = some t ∧ t.keys = g.keys ∧ t.IsKey g.key := by
  obtain ⟨htable, hprimary, -, hfixed⟩ := target_eq_ok hg
  obtain ⟨t, ht, htkeys⟩ := hkeys model g.table g.keys htable hprimary
  exact ⟨t, ht, htkeys, isKey_of_keyOfConditions (htkeys ▸ hfixed)⟩

theorem newRow_isKeyed (hkeys : db.KeysIn tables) {table : String} {data key item : Item}
    (hrow : db.newRow model data = .ok (table, key, item)) :
    (Write.put table item).IsKeyed tables ∧ (Write.put table item).place tables = ⟨table, key⟩ := by
  obtain ⟨htable, keys, hprimary, hkey, -⟩ := Database.newRow_eq_ok hrow
  obtain ⟨t, ht, rfl⟩ := hkeys model table keys htable hprimary
  obtain ⟨rfl, hcarries⟩ := Table.of_rowKey_eq_ok hkey
  exact ⟨⟨t, ht, hcarries, nofun⟩, Write.place_eq ht⟩

/-- The place that a call is about is one of the tables. -/
theorem Call.isKeyed_of_place? (hkeys : db.KeysIn tables) (h : call.place? db = some p) :
    p.IsKeyed tables := by
  obtain ⟨⟨q, f⟩, heffect, rfl⟩ := Option.map_eq_some_iff.mp h
  cases call with
  | create model data =>
    obtain ⟨table, key, item, hrow, rfl, -⟩ := effect?_create heffect
    obtain ⟨hw, hplace⟩ := newRow_isKeyed hkeys hrow
    exact hplace ▸ hw.place
  | update model conditions patch =>
    obtain ⟨g, hg, rfl, -⟩ := effect?_update heffect
    obtain ⟨t, ht, -, hkey⟩ := Target.isKeyed hkeys hg
    exact ⟨t, ht, hkey⟩
  | delete model conditions =>
    obtain ⟨g, hg, rfl, -⟩ := effect?_delete heffect
    obtain ⟨t, ht, -, hkey⟩ := Target.isKeyed hkeys hg
    exact ⟨t, ht, hkey⟩

/-- A write to the key itself is keyed, and to its place. -/
theorem isKeyed_of_row {w : Write} {t : Table} {g : Target} (ht : Fields.get? tables g.table = some t)
    (hkey : t.IsKey g.key) (htable : w.table = g.table) (hrow : w.row = g.key) :
    w.IsKeyed tables ∧ w.place tables = g.place := by
  rw [← htable] at ht
  rw [← hrow] at hkey
  refine ⟨⟨t, ht, hkey.carries, fun _ => hkey⟩, ?_⟩
  rw [Write.place_eq ht, hkey.keyOf_eq, htable, hrow]
  rfl

theorem outcome_stageUpdate {g : Target} {t : Table} (ht : Fields.get? tables g.table = some t)
    (hkey : t.IsKey g.key) {current next : Item} {result : Option Item × Transaction}
    (h : tx.stageUpdate g current next = .ok result) : Outcome tables tx g.place result.2 := by
  obtain ⟨change, b, -, hstage, rfl⟩ := stageUpdate_cases h
  obtain ⟨hw, hplace⟩ := isKeyed_of_row
    (w := .update g.table g.key change.expression change.attributes) ht hkey rfl rfl
  exact .updated _ hw hplace rfl hstage

theorem outcome_changePut (h : tx.buffer.OnePerRow tables) {g : Target} {t : Table}
    (ht : Fields.get? tables g.table = some t) (hkeys : t.keys = g.keys) (hkey : t.IsKey g.key)
    {name : String} {item patch : Item} {result : Option Item × Transaction}
    (hpending : tx.buffer.pending g.table g.key = .ok (some (.put name item)))
    (hresult : tx.changePut db model g item patch = .ok result) :
    Outcome tables tx g.place result.2 := by
  obtain ⟨hold, hsame⟩ := h.of_pending (p := g.place) ⟨t, ht, hkey⟩ hpending
  obtain rfl : name = g.table := hsame.1
  rcases changePut_cases hresult with ⟨-, b, hstage, rfl⟩ | ⟨-, rfl⟩
  · obtain ⟨u, hu, hcarries, -⟩ := h.keyed _ hold
    obtain rfl : t = u := Option.some.inj (ht.symm.trans hu)
    have hnext : t.Carries (db.patchedRow model g.keys item patch) := by
      rw [Database.patchedRow, ← hkeys]
      exact hcarries.patched _
    have hkeyOf : t.keyOf (db.patchedRow model g.keys item patch) = t.keyOf item := by
      rw [Database.patchedRow, ← hkeys, t.keyOf_patched]
    have hw : (Write.put g.table (db.patchedRow model g.keys item patch)).IsKeyed tables :=
      ⟨t, ht, hnext, fun hdelete => by cases hdelete⟩
    refine .rewritten hold hsame rfl hw ?_ rfl hstage
    rw [Write.place_eq ht, Write.place_eq ht, Write.row, Write.row, hkeyOf]
    rfl
  · exact .unchanged

theorem outcome_extendUpdate {g : Target} {t : Table} (ht : Fields.get? tables g.table = some t)
    (hkey : t.IsKey g.key) {staged : StagedUpdate} {patch : Item}
    {result : Option Item × Transaction} (h : tx.extendUpdate db model g staged patch = .ok result) :
    Outcome tables tx g.place result.2 := by
  rcases extendUpdate_cases h with ⟨-, h⟩ | ⟨-, rfl⟩
  · exact outcome_stageUpdate ht hkey h
  · exact .unchanged

/-- Whatever the store answers to it, an update that succeeds has such an outcome. -/
theorem ensures_outcome_update (h : tx.buffer.OnePerRow tables) (hkeys : db.KeysIn tables)
    (patch : Item) :
    Run.Ensures client (fun _ => True) (tx.update db model conditions patch)
      (fun result => ∃ g, target db model conditions = .ok g ∧ Outcome tables tx g.place result.2)
      (fun _ => True) := by
  refine ((keepsTo_update_reads db tx model conditions patch).ensures client).imp ?_ fun _ h => h
  rintro result ⟨g, hg, hrevised⟩
  obtain ⟨t, ht, htkeys, hkey⟩ := Target.isKeyed hkeys hg
  refine ⟨g, hg, ?_⟩
  cases hrevised with
  | missing => exact .unchanged
  | put hpending hresult => exact outcome_changePut h ht htkeys hkey hpending hresult
  | extended _ hresult => exact outcome_extendUpdate ht hkey hresult
  | read _ hresult => exact outcome_stageUpdate ht hkey hresult

/-- Whatever the store answers to it, a call that succeeds has such an outcome. -/
theorem ensures_outcome (client : Client σ) (h : tx.buffer.OnePerRow tables)
    (hkeys : db.KeysIn tables) (call : Call) :
    Run.Ensures client (fun _ => True) (call.run db tx)
      (fun tx' => ∃ p, call.place? db = some p ∧ Outcome tables tx p tx') (fun _ => True) := by
  cases call with
  | create model data =>
    refine .ofExcept (fun tx' hresult => ?_) fun _ _ => trivial
    obtain ⟨created, hcreate, rfl⟩ := exists_of_map_eq_ok hresult
    obtain ⟨table, key, row, b, hrow, hstage, rfl⟩ := create_cases hcreate
    obtain ⟨hw, hplace⟩ := newRow_isKeyed hkeys hrow
    exact ⟨⟨table, key⟩, by rw [Call.place?, Call.effect?, hrow]; rfl,
      .replaced hw hplace rfl hstage⟩
  | update model conditions patch =>
    refine (ensures_outcome_update h hkeys patch).bind fun result hresult => .pure ?_
    obtain ⟨g, hg, houtcome⟩ := hresult
    exact ⟨g.place, by rw [Call.place?, Call.effect?, hg]; rfl, houtcome⟩
  | delete model conditions =>
    refine .ofExcept (fun tx' hresult => ?_) fun _ _ => trivial
    obtain ⟨g, b, hg, hstage, rfl⟩ := delete_cases hresult
    obtain ⟨t, ht, -, hkey⟩ := Target.isKeyed hkeys hg
    obtain ⟨hw, hplace⟩ := isKeyed_of_row (w := .delete g.table g.key) ht hkey rfl rfl
    exact ⟨g.place, by rw [Call.place?, Call.effect?, hg]; rfl, .replaced hw hplace rfl hstage⟩

/-! ## What calls keep -/

/-- The transaction after a call, with the world; a call that fails leaves it as it was. -/
def afterCall (db : Database) (client : Client σ) (state : Transaction × World σ) (call : Call) :
    Transaction × World σ :=
  match (call.run db state.1).run.run client state.2 with
  | (.ok tx, world) => (tx, world)
  | (.error _, world) => (state.1, world)

/-- The transaction after calls one after another, with the world. -/
def afterCalls (db : Database) (client : Client σ) (state : Transaction × World σ)
    (calls : List Call) : Transaction × World σ :=
  calls.foldl (afterCall db client) state

/-- The transaction that calls leave. -/
def ofCalls (db : Database) (client : Client σ) (world : World σ) (calls : List Call) :
    Transaction :=
  (afterCalls db client ({}, world) calls).1

/-- A session makes calls one after another in this way. -/
theorem afterCalls_session (db : Database) (s : Session) (calls : List Call) :
    afterCalls db Memory.receive (s.tx, s.world) calls =
      ((s.run db calls).tx, (s.run db calls).world) := by
  induction calls generalizing s with
  | nil => rfl
  | cons call calls ih =>
    have hstep : afterCall db Memory.receive (s.tx, s.world) call =
        ((s.step db call).tx, (s.step db call).world) := by
      unfold afterCall Session.step
      split <;> simp_all
    rw [afterCalls, List.foldl_cons, hstep]
    exact ih (s.step db call)

/-- One write a row, to places among the given ones, and a record of staged rows that goes with the
buffered updates as far as identifiers go with rows. -/
structure Keeps (tables : Fields Table) (places : List Place) (tx : Transaction) : Prop where
  onePerRow : tx.buffer.OnePerRow tables
  known : ∀ w ∈ tx.buffer.writes, w.place tables ∈ places
  recorded : (∀ p ∈ places, ∀ q ∈ places, p.id = q.id → p.SameRow q) →
    ∀ w ∈ tx.buffer.writes, w.isUpdate = true → (Fields.get? tx.updates (w.place tables).id).isSome
  backed : (∀ p ∈ places, ∀ q ∈ places, p.SameRow q → p.id = q.id) →
    ∀ id, (Fields.get? tx.updates id).isSome →
      ∃ w ∈ tx.buffer.writes, w.isUpdate = true ∧ (w.place tables).id = id

namespace Keeps

variable {places : List Place} {w : Write} {b : WriteBuffer}

theorem known_stage (h : Keeps tables places tx) (hp : p.IsKeyed tables) (htable : w.table = p.table)
    (hw : w.place tables ∈ places) (hstage : tx.buffer.stage w p.key = .ok b) :
    ∀ v ∈ b.writes, v.place tables ∈ places := by
  intro v hv
  rcases (h.onePerRow.mem_stage hp htable hstage).mp hv with rfl | ⟨hv, -⟩
  · exact hw
  · exact h.known v hv

/-- A write to a row and the staged row that belongs to it come together. -/
theorem stage (h : Keeps tables places tx) (hp : p.IsKeyed tables) (hmem : p ∈ places)
    (hw : w.IsKeyed tables) (hplace : w.place tables = p) (hstage : tx.buffer.stage w p.key = .ok b)
    {updates : Fields StagedUpdate} (hhere : (Fields.get? updates p.id).isSome = w.isUpdate)
    (hothers : ∀ id, p.id ≠ id → Fields.get? updates id = Fields.get? tx.updates id) :
    Keeps tables places ⟨b, updates⟩ := by
  have hsame : (w.place tables).SameRow p := hplace ▸ hw.place.sameRow_refl
  have hstaged : ∀ v, v ∈ b.writes ↔ v = w ∨ v ∈ tx.buffer.writes ∧ ¬(v.place tables).SameRow p :=
    fun v => h.onePerRow.mem_stage hp hsame.1 hstage
  refine ⟨h.onePerRow.stage hw hp hsame hstage, h.known_stage hp hsame.1 (hplace ▸ hmem) hstage,
    fun hapart v hv hupdate => ?_, fun hagree id hid => ?_⟩
  · rcases (hstaged v).mp hv with rfl | ⟨hv, hother⟩
    · rw [hplace, hhere, hupdate]
    · rw [hothers _ fun heq => hother (hapart _ (h.known v hv) p hmem heq.symm)]
      exact h.recorded hapart v hv hupdate
  · by_cases heq : p.id = id
    · exact ⟨w, (hstaged w).mpr (.inl rfl), hhere ▸ heq ▸ hid, hplace ▸ heq⟩
    · rw [hothers id heq] at hid
      obtain ⟨v, hv, hupdate, hvid⟩ := h.backed hagree id hid
      refine ⟨v, (hstaged v).mpr (.inr ⟨hv, fun hrow => heq ?_⟩), hupdate, hvid⟩
      exact (hagree _ (h.known v hv) p hmem hrow).symm.trans hvid

/-- One step keeps what is kept. -/
theorem step (h : Keeps tables places tx) (hp : p.IsKeyed tables) (hmem : p ∈ places)
    (houtcome : Outcome tables tx p tx') : Keeps tables places tx' := by
  cases houtcome with
  | unchanged => exact h
  | updated u hw hplace hupdate hstage =>
    refine h.stage hp hmem hw hplace hstage ?_ fun id hne => Fields.get?_insert_of_ne _ _ hne
    rw [Fields.get?_insert_self, hupdate]
    rfl
  | replaced hw hplace hupdate hstage =>
    refine h.stage hp hmem hw hplace hstage ?_ fun id hne => ?_
    · rw [Fields.get?_erase, if_pos rfl, hupdate]
      rfl
    · rw [Fields.get?_erase, if_neg hne]
  | @rewritten old w b hold hsame hold' hw hplace hupdate hstage =>
    have hsame' : (w.place tables).SameRow p := hplace ▸ hsame
    have hstaged : ∀ v, v ∈ b.writes ↔
        v = w ∨ v ∈ tx.buffer.writes ∧ ¬(v.place tables).SameRow p :=
      fun v => h.onePerRow.mem_stage hp hsame'.1 hstage
    refine ⟨h.onePerRow.stage hw hp hsame' hstage,
      h.known_stage hp hsame'.1 (hplace ▸ h.known old hold) hstage,
      fun hapart v hv hvupdate => ?_, fun hagree id hid => ?_⟩
    · rcases (hstaged v).mp hv with rfl | ⟨hv, -⟩
      · rw [hupdate] at hvupdate
        cases hvupdate
      · exact h.recorded hapart v hv hvupdate
    · obtain ⟨v, hv, hvupdate, hvid⟩ := h.backed hagree id hid
      refine ⟨v, (hstaged v).mpr (.inr ⟨hv, fun hrow => ?_⟩), hvupdate, hvid⟩
      -- the write to the row is the one that is put again
      have hrows := hrow.trans (h.onePerRow.keyed v hv).place hp (h.onePerRow.keyed old hold).place
        hsame.symm
      obtain rfl := h.onePerRow.eq_of_sameRow hv hold hrows
      rw [hold'] at hvupdate
      cases hvupdate

/-- A call keeps what is kept, whether it succeeds or fails. -/
theorem afterCall {state : Transaction × World σ} (h : Keeps tables places state.1)
    (hkeys : db.KeysIn tables) (client : Client σ) (hcall : ∀ p ∈ call.place? db, p ∈ places) :
    Keeps tables places (Transaction.afterCall db client state call).1 := by
  have hensures := (ensures_outcome client h.onePerRow hkeys call state.2 trivial).2
  unfold Transaction.afterCall
  cases hrun : (call.run db state.1).run.run client state.2 with
  | mk result world =>
    rw [hrun] at hensures
    cases result with
    | error fault => exact h
    | ok tx =>
      obtain ⟨p, hp, houtcome⟩ := hensures
      exact h.step (Call.isKeyed_of_place? hkeys hp) (hcall p hp) houtcome

/-- Calls one after another keep what is kept. -/
theorem afterCalls {state : Transaction × World σ} (h : Keeps tables places state.1)
    (hkeys : db.KeysIn tables) (client : Client σ) {calls : List Call}
    (hcalls : ∀ call ∈ calls, ∀ p ∈ call.place? db, p ∈ places) :
    Keeps tables places (Transaction.afterCalls db client state calls).1 := by
  induction calls generalizing state with
  | nil => exact h
  | cons call calls ih =>
    obtain ⟨hcall, hrest⟩ := List.forall_mem_cons.mp hcalls
    exact ih (h.afterCall hkeys client hcall) hrest

end Keeps

theorem keeps_empty (tables : Fields Table) (places : List Place) : Keeps tables places {} where
  onePerRow := .empty tables
  known := by simp
  recorded := by simp
  backed := by simp

theorem rowId_of_isUpdate {w : Write} (hw : w.IsKeyed tables) (hupdate : w.isUpdate = true) :
    (w.place tables).id = rowId w.table w.row := by
  obtain ⟨t, ht, -, hkey⟩ := hw
  have hput : w.isPut = false := by
    cases w <;> first | rfl | cases hupdate
  rw [Write.place_eq ht, (hkey hput).keyOf_eq]
  rfl

/-- After any calls, whatever the store has answered and whichever of them have failed, a transaction
holds at most 25 writes, no two of them to one row, so a store of the schema carries them out or cancels
them. If no two rows that the calls are about share an identifier, every buffered update has its
staged row; if the keys of each such row share theirs, every staged row belongs to a buffered
update. -/
theorem ofCalls_writes {s : Schema} (hs : s.TablesApart) {m : Memory} (hm : m.IsOf s)
    (hresolver : db.resolver = s.resolver) (client : Client σ) (world : World σ)
    (calls : List Call) :
    let tx := ofCalls db client world calls
    let places := calls.filterMap (Call.place? db)
    tx.buffer.writes.length ≤ 25 ∧
      (tx.buffer.writes.Pairwise fun v w => ¬v.SameRow m.tables w) ∧
      ((∀ p ∈ places, ∀ q ∈ places, p.id = q.id → p.SameRow q) →
        ∀ w ∈ tx.buffer.writes, w.isUpdate = true →
          (Fields.get? tx.updates (rowId w.table w.row)).isSome) ∧
      ((∀ p ∈ places, ∀ q ∈ places, p.SameRow q → p.id = q.id) →
        ∀ id, (Fields.get? tx.updates id).isSome →
          ∃ w ∈ tx.buffer.writes, w.isUpdate = true ∧ rowId w.table w.row = id) ∧
      ∀ fault, m.transact tx.buffer.writes = .error fault → ∃ message, fault = .canceled message := by
  intro tx places
  have hkeeps : Keeps m.tables places tx :=
    (keeps_empty m.tables places).afterCalls (Database.keysIn hs hm hresolver) client
      fun call hcall p hp => List.mem_filterMap.mpr ⟨call, hcall, hp⟩
  have hkeyed := hkeeps.onePerRow.keyed
  have hapart : tx.buffer.writes.Pairwise fun v w => ¬v.SameRow m.tables w :=
    hkeeps.onePerRow.apart.imp_of_mem fun hv hw hnot hsame =>
      hnot (((hkeyed _ hv).sameRow_iff (hkeyed _ hw)).mp hsame)
  refine ⟨hkeeps.onePerRow.length_le, hapart, fun hids w hw hupdate => ?_, fun hids id hid => ?_,
    fun fault hfault => ?_⟩
  · rw [← rowId_of_isUpdate (hkeyed w hw) hupdate]
    exact hkeeps.recorded hids w hw hupdate
  · obtain ⟨w, hw, hupdate, rfl⟩ := hkeeps.backed hids id hid
    exact ⟨w, hw, hupdate, (rowId_of_isUpdate (hkeyed w hw) hupdate).symm⟩
  · refine Memory.transact_eq_error hkeeps.onePerRow.length_le (fun w hw t ht => ?_) hapart hfault
    obtain ⟨u, hu, hcarries, -⟩ := hkeyed w hw
    obtain rfl := Option.some.inj (hu.symm.trans ht)
    exact hcarries _ List.mem_cons_self

/-- A row is updated twice, another one is deleted and then created again. -/
theorem ofCalls_writes_users :
    let user : ModelDef := { name := "user", table := "users", primaryKey := { partition := "id" } }
    let store := (Memory.ofSchema (.ofModels [user]) none).seed "users"
      [.map [("id", .num (.int 1)), ("n", .num (.int 1))], .map [("id", .str "b")]]
    let db : Database := { resolver := (Schema.ofModels [user]).resolver }
    let byId (v : Value) : List Condition := [⟨"id", none, v, none⟩]
    let calls : List Call :=
      [.update "user" (byId (.num (.int 1))) [("n", .num (.int 5))], .delete "user" (byId (.str "b")),
        .update "user" (byId (.num (.int 1))) [("n", .num (.int 7))],
        .create "user" [("id", .str "b")]]
    let tx := ofCalls db Memory.receive { store } calls
    tx.buffer.writes.length = 2 ∧ (tx.buffer.writes.Pairwise fun v w => ¬v.SameRow store.tables w) ∧
      Fields.names tx.updates = ["users/n:1"] ∧
      (∃ w ∈ tx.buffer.writes, w.isUpdate = true ∧ rowId w.table w.row = "users/n:1") ∧
      ∀ fault, store.transact tx.buffer.writes = .error fault →
        ∃ message, fault = .canceled message := by
  intro user store db byId calls tx
  have hs : (Schema.ofModels [user]).TablesApart := by unfold Schema.TablesApart; decide +kernel
  have hstore : store.IsOf (.ofModels [user]) := (Memory.isOf_ofSchema _ _).seed _ _
  have hkeyed : ∀ p ∈ calls.filterMap (Call.place? db), p.IsKeyed store.tables := by
    intro p hp
    obtain ⟨call, -, hcall⟩ := List.mem_filterMap.mp hp
    exact Call.isKeyed_of_place? (Database.keysIn hs hstore rfl) hcall
  have hexact : ∀ p ∈ calls.filterMap (Call.place? db), ∀ field ∈ p.key, field.2.IsExact := by
    decide +kernel
  have hnames : Fields.names tx.updates = ["users/n:1"] := by decide +kernel
  have hresolver : db.resolver = (Schema.ofModels [user]).resolver := rfl
  obtain ⟨-, hapart, -, hbacked, hcancelled⟩ :=
    ofCalls_writes hs hstore hresolver Memory.receive { store } calls
  have hids : ∀ p ∈ calls.filterMap (Call.place? db), ∀ q ∈ calls.filterMap (Call.place? db),
      p.SameRow q → p.id = q.id := fun p hp q hq h =>
    h.id_eq (hkeyed p hp) (hkeyed q hq) (hexact p hp) (hexact q hq)
  have hstaged : (Fields.get? tx.updates "users/n:1").isSome := by
    rw [Fields.isSome_get?_iff, hnames]
    exact List.mem_cons_self
  have hlength : tx.buffer.writes.length = 2 := by decide +kernel
  subst tx
  exact ⟨hlength, hapart, hnames, hbacked hids _ hstaged, hcancelled⟩

/-- Two integers that binary64 cannot tell apart are keys of one row with two identifiers. The deletion
takes the place of the update, but its staged row stays, and is found. -/
theorem not_ofCalls_writes :
    let user : ModelDef := { name := "user", table := "users", primaryKey := { partition := "id" } }
    let store := (Memory.ofSchema (.ofModels [user]) none).seed "users"
      [.map [("id", .num (.int 9007199254740992)), ("name", .str "ada")]]
    let db : Database := { resolver := (Schema.ofModels [user]).resolver }
    let byId (id : Int) : List Condition := [⟨"id", none, .num (.int id), none⟩]
    let calls : List Call :=
      [.update "user" (byId 9007199254740992) [("name", .str "bob")],
        .delete "user" (byId 9007199254740993)]
    let state := afterCalls db Memory.receive ({}, { store }) calls
    let places := calls.filterMap (Call.place? db)
    (∀ p ∈ places, ∀ q ∈ places, p.id = q.id → p = q) ∧
      state.1.buffer.writes = [.delete "users" [("id", .num (.int 9007199254740993))]] ∧
      Fields.names state.1.updates = ["users/n:9007199254740992"] ∧
      ((state.1.findOne db
          { model := "user", conditions := [⟨"name", none, .str "bob", none⟩] }).run.run
        Memory.receive state.2).1 =
        .ok (some [("id", .num (.int 9007199254740992)), ("name", .str "bob")]) := by
  decide +kernel

end Transaction

end KeyedQuery
