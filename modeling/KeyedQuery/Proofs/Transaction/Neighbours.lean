import KeyedQuery.Proofs.Store.RowWrites
import KeyedQuery.Proofs.Transaction.Bookkeeping

/-!
# Rows next to one that is written

What a transaction reads of a row, what an update makes of it and what a commit leaves of it go by what the
transaction knows of that row (`Transaction.run_findOne_congr`, `Transaction.Matching.run_update`,
`Transaction.stored?_of_commit`). A call about another row does not change that if the rows that are called
about are told apart by their identifiers (`Transaction.afterCall_spares`), as they are if neither tables nor
first parts of keys have slashes of their own (`Place.toldApart_of_slashFree`). Identifiers alone do not tell
rows apart: two keys of two parts may have one (`Transaction.not_afterCall_spares`).
-/

namespace KeyedQuery

/-! ## Rows that are told apart -/

/-- Texts of which only the last one may have slashes can be read off their concatenation with slashes between
them, if it is known how many there are. -/
theorem intercalate_slash_inj_of_length : ∀ {xs ys : List String}, xs.length = ys.length →
    (∀ x ∈ xs.dropLast, IsSlashFree x) → (∀ y ∈ ys.dropLast, IsSlashFree y) →
    "/".intercalate xs = "/".intercalate ys → xs = ys
  | [], [], _, _, _, _ => rfl
  | [x], [y], _, _, _, h => by
    rw [String.intercalate_singleton, String.intercalate_singleton] at h
    rw [h]
  | x :: x' :: xs, y :: y' :: ys, hlength, hx, hy, h => by
    rw [String.intercalate_cons_cons, String.intercalate_cons_cons] at h
    rw [List.dropLast_cons_cons] at hx hy
    have hlist := congrArg String.toList h
    simp only [String.toList_append, toList_slash, List.append_assoc, List.singleton_append]
      at hlist
    obtain ⟨hfirst, hrest⟩ := append_slash_inj (hx x List.mem_cons_self) (hy y List.mem_cons_self)
      hlist
    rw [String.toList_inj.mp hfirst,
      intercalate_slash_inj_of_length (Nat.succ.inj hlength)
        (fun z hz => hx z (List.mem_cons_of_mem _ hz)) (fun z hz => hy z (List.mem_cons_of_mem _ hz))
        (String.toList_inj.mp hrest)]

namespace Place

variable {tables : Fields Table} {p q : Place}

/-- Places with one identifier are of one row. -/
def ToldApart (places : List Place) : Prop :=
  ∀ a ∈ places, ∀ b ∈ places, a.id = b.id → a.SameRow b

instance (places : List Place) : Decidable (ToldApart places) :=
  inferInstanceAs (Decidable (∀ a ∈ places, ∀ b ∈ places, a.id = b.id → a.SameRow b))

/-- The table has no slash in its name, and of the parts of the key only the last one may have any. -/
def IsSlashFree (p : Place) : Prop :=
  KeyedQuery.IsSlashFree p.table ∧ ∀ field ∈ p.key.dropLast, KeyedQuery.IsSlashFree field.2.groupKey

instance (p : Place) : Decidable p.IsSlashFree :=
  inferInstanceAs (Decidable (_ ∧ _))

theorem IsKeyed.sameRow_of_id_eq (hp : p.IsKeyed tables) (hq : q.IsKeyed tables) (hpfree : p.IsSlashFree)
    (hqfree : q.IsSlashFree) (h : p.id = q.id) : p.SameRow q := by
  have hlist := congrArg String.toList h
  simp only [id, Transaction.rowId, String.toList_append, toList_slash, List.append_assoc,
    List.singleton_append] at hlist
  obtain ⟨htable, hrest⟩ := append_slash_inj hpfree.1 hqfree.1 hlist
  have htable := String.toList_inj.mp htable
  refine (hp.sameRow_iff hq).mpr ⟨htable, ?_⟩
  obtain ⟨t, ht, hpkey⟩ := hp
  have hqkey := hq.isKey (htable ▸ ht)
  have hlength : p.key.length = q.key.length := by
    simpa [Fields.names] using congrArg List.length (hpkey.names_eq hqkey)
  have hfree : ∀ {r : Place}, r.IsSlashFree →
      ∀ x ∈ (r.key.map fun field => field.2.groupKey).dropLast, KeyedQuery.IsSlashFree x := by
    intro r hr x hx
    rw [← List.map_dropLast] at hx
    obtain ⟨field, hfield, rfl⟩ := List.mem_map.mp hx
    exact hr.2 field hfield
  have hgroups := intercalate_slash_inj_of_length (by simpa using hlength) (hfree hpfree)
    (hfree hqfree) (String.toList_inj.mp hrest)
  have hagree : t.KeysAgree p.key q.key := Table.keysAgree_of_groups_eq
    (hpkey.carries _ List.mem_cons_self) (hqkey.carries _ List.mem_cons_self)
    (by rw [hpkey.keyOf_eq, hqkey.keyOf_eq, hgroups])
  rw [hqkey.hasKey]
  exact hagree.1

/-- Keys whose tables and first parts have no slashes of their own are told apart. -/
theorem toldApart_of_slashFree {places : List Place} (hkeyed : ∀ p ∈ places, p.IsKeyed tables)
    (hfree : ∀ p ∈ places, p.IsSlashFree) : ToldApart places := fun a ha b hb h =>
  (hkeyed a ha).sameRow_of_id_eq (hkeyed b hb) (hfree a ha) (hfree b hb) h

end Place

namespace Transaction

variable {db : Database} {tables : Fields Table} {tx tx' : Transaction} {p q : Place} {model : String}
  {conditions : List Condition} {g : Target} {current next : Item} {patch item : Item}

/-! ## Updates -/

/-- What a call comes to for a row: the answer, and what the transaction knows of the row after it. -/
def amount (p : Place) (result : Option Item × Transaction) :
    Option Item × List Write × Option StagedUpdate :=
  (result.1, result.2.record p)

/-- The second call comes to what the first one comes to, unless there is no room for another write. -/
def Alike (p : Place) (e e' : Except Fault (Option Item × Transaction)) : Prop :=
  e' = .error (.transactionLimit maxTransactionWrites) ∨ e'.map (amount p) = e.map (amount p)

/-- Both transactions take writes and know the same of a row, and the second one holds at least as many
writes. -/
structure Matching (p : Place) (tx tx' : Transaction) : Prop where
  active : tx.buffer.requireActive = .ok ()
  active' : tx'.buffer.requireActive = .ok ()
  record_eq : tx'.record p = tx.record p
  length_le : tx.buffer.writes.length ≤ tx'.buffer.writes.length

/-- An update of a row that the transaction has written does not ask the store. -/
theorem run_update_of_own {σ : Type} {client : Client σ} {v : World σ}
    (hg : target db model conditions = .ok g) {e : Except Fault (Option Item × Transaction)}
    (hown : tx.ownUpdate? db model g patch = e.map some) :
    (tx.update db model conditions patch).run.run client v = (e, v) := by
  rw [update_eq, hg]
  show (Run.ofExcept (tx.ownUpdate? db model g patch) >>= _).run.run client v = _
  rw [hown]
  cases e <;> rfl

/-- An update of a row that the transaction has not written reads it. -/
theorem run_update_of_unknown {σ : Type} {client : Client σ} {v : World σ}
    (hg : target db model conditions = .ok g) (hown : tx.ownUpdate? db model g patch = .ok none) :
    (tx.update db model conditions patch).run.run client v =
      (((db.findOne { model, conditions }).run.run client v).1.bind (tx.readUpdate db model g patch),
        ((db.findOne { model, conditions }).run.run client v).2) := by
  rw [update_eq, hg]
  show (Run.ofExcept (tx.ownUpdate? db model g patch) >>= _).run.run client v = _
  rw [hown]
  show (db.findOne { model, conditions } >>= _).run.run client v = _
  rw [Run.run_bind]
  cases ((db.findOne { model, conditions }).run.run client v).1 <;> rfl

namespace Matching

theorem writesTo_eq (h : Matching p tx tx') : tx'.buffer.writesTo p = tx.buffer.writesTo p :=
  congrArg Prod.fst h.record_eq

theorem get?_updates (h : Matching p tx tx') :
    Fields.get? tx'.updates p.id = Fields.get? tx.updates p.id :=
  congrArg Prod.snd h.record_eq

theorem alike_self (h : Matching p tx tx') (found : Option Item) :
    Alike p (.ok (found, tx)) (.ok (found, tx')) :=
  .inr (congrArg (fun r => Except.ok (found, r)) h.record_eq)

/-- A write to the row is staged, and the record of staged updates goes with it. -/
theorem stage (h : Matching p tx tx') {w : Write} (htable : w.table = p.table)
    (htargets : w.targets p.key = true) {found : Option Item}
    {f : Fields StagedUpdate → Fields StagedUpdate}
    (hf : Fields.get? (f tx'.updates) p.id = Fields.get? (f tx.updates) p.id) :
    Alike p (tx.buffer.stage w p.key >>= fun buffer => .ok (found, ⟨buffer, f tx.updates⟩))
      (tx'.buffer.stage w p.key >>= fun buffer => .ok (found, ⟨buffer, f tx'.updates⟩)) := by
  rcases WriteBuffer.stage_congr h.active h.active' h.writesTo_eq h.length_le htable htargets with
    hfull | ⟨c, c', hc, hc', hwrites⟩
  · rw [hfull]
    exact .inl rfl
  · rw [hc, hc']
    refine .inr (congrArg (fun r => Except.ok (found, r)) ?_)
    exact Prod.ext hwrites hf

theorem stageUpdate (h : Matching g.place tx tx') (hself : g.key.hasKey g.key = true) :
    Alike g.place (tx.stageUpdate g current next) (tx'.stageUpdate g current next) := by
  unfold Transaction.stageUpdate
  cases Database.patchBetween current next with
  | error fault => exact .inr rfl
  | ok change =>
    exact h.stage (w := .update g.table g.key change.expression change.attributes)
      (f := fun updates => Fields.insert updates g.id ⟨g.table, current, next⟩) rfl hself
      ((Fields.get?_insert_self _ g.id _).trans (Fields.get?_insert_self _ g.id _).symm)

/-- A row that is put is changed in place. -/
theorem changePut (h : Matching g.place tx tx') (hg : target db model conditions = .ok g) :
    Alike g.place (tx.changePut db model g item patch) (tx'.changePut db model g item patch) := by
  unfold Transaction.changePut
  split
  · rename_i hmatches
    have hfixed := (target_eq_ok hg).2.2.2
    have hkey : Table.IsKey { keys := g.keys } g.key := isKey_of_keyOfConditions hfixed
    refine h.stage (w := .put g.table (db.patchedRow model g.keys item patch)) (f := id) rfl ?_
      h.get?_updates
    exact (hkey.hasKey_congr (Database.sameOn_patchedRow rfl item patch)).trans
      (hasKey_of_matchesAll hfixed hmatches)
  · exact h.alike_self none

theorem extendUpdate (h : Matching g.place tx tx') (hself : g.key.hasKey g.key = true)
    (staged : StagedUpdate) : Alike g.place (tx.extendUpdate db model g staged patch)
      (tx'.extendUpdate db model g staged patch) := by
  unfold Transaction.extendUpdate
  split
  · exact h.stageUpdate hself
  · exact h.alike_self none

theorem readUpdate (h : Matching g.place tx tx') (hself : g.key.hasKey g.key = true)
    (found : Option Item) : Alike g.place (tx.readUpdate db model g patch found)
      (tx'.readUpdate db model g patch found) := by
  cases found with
  | none => exact h.alike_self none
  | some current => exact h.stageUpdate hself

/-- Either both updates have to read the row, or neither has. -/
theorem ownUpdate? (h : Matching g.place tx tx') (hg : target db model conditions = .ok g)
    (hself : g.key.hasKey g.key = true) (patch : Item) :
    (tx.ownUpdate? db model g patch = .ok none ∧ tx'.ownUpdate? db model g patch = .ok none) ∨
      ∃ e e', tx.ownUpdate? db model g patch = e.map some ∧
        tx'.ownUpdate? db model g patch = e'.map some ∧ Alike g.place e e' := by
  have hpending : ∀ {b : WriteBuffer}, b.requireActive = .ok () →
      b.pending g.table g.key = .ok (b.writesTo g.place).getLast? := fun hb =>
    WriteBuffer.pending_eq hb g.place
  have hstaged : Fields.get? tx'.updates g.id = Fields.get? tx.updates g.id := h.get?_updates
  unfold Transaction.ownUpdate?
  rw [hpending h.active, hpending h.active', h.writesTo_eq, hstaged]
  cases (tx.buffer.writesTo g.place).getLast? with
  | none =>
    cases Fields.get? tx.updates g.id with
    | none => exact .inl ⟨rfl, rfl⟩
    | some staged => exact .inr ⟨_, _, rfl, rfl, h.extendUpdate hself staged⟩
  | some w =>
    cases w with
    | put name item => exact .inr ⟨_, _, rfl, rfl, h.changePut hg⟩
    | delete name key => exact .inr ⟨_, _, rfl, rfl, h.alike_self none⟩
    | update name key expression attributes =>
      cases Fields.get? tx.updates g.id with
      | none => exact .inl ⟨rfl, rfl⟩
      | some staged => exact .inr ⟨_, _, rfl, rfl, h.extendUpdate hself staged⟩

/-- Two updates of the row come to the same, and ask the same of the store. -/
theorem run_update {σ : Type} (h : Matching g.place tx tx')
    (hg : target db model conditions = .ok g) (patch : Item) (client : Client σ) (v : World σ) :
    ((tx'.update db model conditions patch).run.run client v).2 =
        ((tx.update db model conditions patch).run.run client v).2 ∧
      Alike g.place ((tx.update db model conditions patch).run.run client v).1
        ((tx'.update db model conditions patch).run.run client v).1 := by
  have hself : g.key.hasKey g.key = true := by
    have hkey : Table.IsKey { keys := g.keys } g.key :=
      isKey_of_keyOfConditions (target_eq_ok hg).2.2.2
    rw [hkey.hasKey]
    exact Table.sameKey_refl _ g.key
  rcases h.ownUpdate? hg hself patch with ⟨hown, hown'⟩ | ⟨e, e', hown, hown', halike⟩
  · -- Both read the row, and find the same.
    rw [run_update_of_unknown hg hown, run_update_of_unknown hg hown']
    refine ⟨rfl, ?_⟩
    dsimp only
    cases ((db.findOne { model, conditions }).run.run client v).1 with
    | error fault => exact .inr rfl
    | ok found => exact h.readUpdate hself found
  · rw [run_update_of_own hg hown, run_update_of_own hg hown']
    exact ⟨rfl, halike⟩

end Matching

/-! ## Reads -/

/-- Reads by the key of a row end alike if the transactions hold the same row of their own, or none, and see the
row of the store alike. -/
theorem run_findOne_congr {q : FindQuery} (hg : target db q.model q.conditions = .ok g)
    (hretains : q.Retains db.resolver g.keys.attributes)
    (hown : tx'.ownRow? g.table g.conditions = tx.ownRow? g.table g.conditions)
    (hseen : ∀ key row, Database.rowKey q.model g.keys row = .ok key → row.hasKey g.key = true →
      tx'.seenRow? g.table key row = tx.seenRow? g.table key row) (v : World Memory) :
    (tx'.findOne db q).run.run Memory.receive v = (tx.findOne db q).run.run Memory.receive v := by
  obtain ⟨htable, hprimary, hconditions, -⟩ := target_eq_ok hg
  have hfound := (ensures_findOne_hasKey hg hretains v ⟨rfl, rfl, False.elim, False.elim⟩).2
  unfold findOne
  rw [htable, hconditions]
  show (Run.ofExcept (tx'.ownRow? g.table g.conditions) >>= _).run.run Memory.receive v =
    (Run.ofExcept (tx.ownRow? g.table g.conditions) >>= _).run.run Memory.receive v
  rw [hown]
  cases tx.ownRow? g.table g.conditions with
  | error fault => rfl
  | ok own =>
    cases own with
    | some row => rfl
    | none =>
      show (db.findOne q >>= _).run.run Memory.receive v =
        (db.findOne q >>= _).run.run Memory.receive v
      rw [Run.run_bind, Run.run_bind]
      cases hresult : ((db.findOne q).run.run Memory.receive v).1 with
      | error fault => rfl
      | ok found =>
        rw [hresult] at hfound
        cases found with
        | none => rfl
        | some row =>
          dsimp only
          rw [hprimary]
          show (Run.ofExcept (Database.rowKey q.model g.keys row) >>= _).run.run Memory.receive _ =
            (Run.ofExcept (Database.rowKey q.model g.keys row) >>= _).run.run Memory.receive _
          cases hkey : Database.rowKey q.model g.keys row with
          | error fault => rfl
          | ok key =>
            show (Run.ofExcept (tx'.seenRow? g.table key row)).run.run Memory.receive _ =
              (Run.ofExcept (tx.seenRow? g.table key row)).run.run Memory.receive _
            rw [hseen key row hkey (hfound row rfl)]

section

variable {places : List Place} {t : Table}

/-- The target is another row than that of the place, which shares its identifier with no other one of the
given places. -/
structure Target.Beside (tables : Fields Table) (places : List Place) (p : Place) (g : Target) : Prop where
  keyed : ∀ a ∈ places, a.IsKeyed tables
  apart : ∀ a ∈ places, a.id = p.id → a.SameRow p
  place : p.IsKeyed tables
  target : g.place.IsKeyed tables
  other : ¬p.SameRow g.place
  fixed : ∀ item, matchesAll g.conditions item = true → item.hasKey g.key = true

namespace Target.Beside

/-- Updates that are staged under the identifier of another row do not satisfy the conditions. -/
theorem updatedRow?_erase (h : g.Beside tables places p) (hfiled : Filed tables places tx) :
    updatedRow? { tx with updates := Fields.erase tx.updates p.id } g.table g.conditions =
      tx.updatedRow? g.table g.conditions := by
  refine findSome?_filter fun field hfield hid => if_neg ?_
  rintro ⟨htable, hmatches⟩
  obtain ⟨a, ha, haid, hof⟩ := hfiled.updates field hfield
  have hid : field.1 = p.id := by simpa using hid
  have hakeyed := h.keyed a ha
  have htarget := hakeyed.sameRow_of_hasKey h.target (hof.table_eq.symm.trans htable) hof.hasKey
    (h.fixed _ hmatches)
  exact h.other ((h.apart a ha (haid.trans hid)).symm.trans h.place hakeyed h.target htarget)

theorem ownRow?_eq (h : g.Beside tables places p) (hactive : tx.buffer.requireActive = .ok ())
    (hactive' : tx'.buffer.requireActive = .ok ()) (hfiled : Filed tables places tx)
    (hfiled' : Filed tables places tx') (hapart : Apart tables p tx tx') :
    tx'.ownRow? g.table g.conditions = tx.ownRow? g.table g.conditions := by
  have hsearch : ∀ {b : WriteBuffer}, b.requireActive = .ok () → b.search g.table g.conditions =
      .ok ((b.writesTo g.place).reverse.findSome? (WriteBuffer.putRow? g.table g.conditions)) :=
    fun hb => WriteBuffer.search_eq (p := g.place) hb h.fixed
  have hupdated : tx'.updatedRow? g.table g.conditions = tx.updatedRow? g.table g.conditions := by
    rw [← h.updatedRow?_erase hfiled, ← h.updatedRow?_erase hfiled', hapart.erase_eq]
    rfl
  unfold ownRow?
  rw [hsearch hactive, hsearch hactive', hapart.writesTo_eq g.place h.target h.other, hupdated]

theorem seenRow?_eq (h : g.Beside tables places p) (hactive : tx.buffer.requireActive = .ok ())
    (hactive' : tx'.buffer.requireActive = .ok ()) (hapart : Apart tables p tx tx')
    (ht : Fields.get? tables g.table = some t) (hkeys : t.keys = g.keys) {key row : Item}
    (hkey : Database.rowKey model g.keys row = .ok key) (hrow : row.hasKey g.key = true) :
    tx'.seenRow? g.table key row = tx.seenRow? g.table key row := by
  obtain ⟨rfl, hcarries⟩ := Table.of_rowKey_eq_ok (t := t) (hkeys ▸ hkey)
  have hkeyed : Place.IsKeyed tables ⟨g.table, t.keyOf row⟩ := ⟨t, ht, Table.isKey_keyOf hcarries⟩
  have hsame : Place.SameRow ⟨g.table, t.keyOf row⟩ g.place := by
    refine (hkeyed.sameRow_iff h.target).mpr ⟨rfl, ?_⟩
    have hgkey := h.target.isKey ht
    rw [hgkey.hasKey, Table.sameKey_keyOf, ← hgkey.hasKey]
    exact hrow
  have hother : ¬p.SameRow ⟨g.table, t.keyOf row⟩ := fun hp =>
    h.other (hp.trans h.place hkeyed h.target hsame)
  have hpending : tx'.buffer.pending g.table (t.keyOf row) = tx.buffer.pending g.table (t.keyOf row) := by
    have heq := WriteBuffer.pending_eq hactive' ⟨g.table, t.keyOf row⟩
    rw [hapart.writesTo_eq _ hkeyed hother, ← WriteBuffer.pending_eq hactive] at heq
    exact heq
  unfold seenRow?
  rw [hpending]

end Target.Beside

end

/-! ## Commits -/

/-- A commit that succeeds has carried the writes out one after another. -/
theorem exists_fold_of_commit {w : World Memory} (hactive : tx.buffer.requireActive = .ok ())
    {token : String} (h : ((tx.commit db token).run.run Memory.receive w).1 = .ok ()) :
    ∃ state, tx.buffer.writes.foldlM Memory.transactOne (w.store.tables, []) = .ok state ∧
      ((tx.commit db token).run.run Memory.receive w).2.store.tables = state.1 := by
  have hcommit : (tx.commit db token).run.run Memory.receive w =
      ((((tx.buffer.commit db.config.retry token).run Memory.receive w).1).1,
        ((tx.buffer.commit db.config.retry token).run Memory.receive w).2) :=
    Dialogue.run_map _ _ w
  rw [hcommit] at h ⊢
  unfold WriteBuffer.commit at h ⊢
  rw [hactive] at h ⊢
  dsimp only at h ⊢
  split at h
  · rename_i hempty
    rw [if_pos hempty, List.isEmpty_iff.mp hempty]
    exact ⟨_, rfl, rfl⟩
  · rename_i hempty
    rw [if_neg hempty]
    rw [Dialogue.run_bind] at h ⊢
    cases hanswer : ((db.config.retry.request (.transact tx.buffer.writes token)).run.run
        Memory.receive w).1 with
    | error fault =>
      rw [hanswer] at h
      cases h
    | ok answer =>
      obtain ⟨-, hperform⟩ := Memory.of_request_eq_ok hanswer
      obtain ⟨state, hfold, htables⟩ := Memory.exists_fold_of_transact hperform
      exact ⟨state, hfold, htables⟩

/-- What a commit leaves of a row is what the writes to the row make of it. -/
theorem stored?_of_commit {w : World Memory} {t : Table} (hrows : tx.buffer.OnePerRow tables)
    (hfiled : ∀ v ∈ tx.buffer.writes, ∀ u, Fields.get? tables v.table = some u → v.KeepsKey u.keys)
    {u : Table} (hu : Fields.get? tables p.table = some u) (hkey : u.IsKey p.key)
    (ht : Fields.get? w.store.tables p.table = some t) (hkeys : t.keys = u.keys) (hwell : t.WellKeyed)
    {token : String} (h : ((tx.commit db token).run.run Memory.receive w).1 = .ok ()) :
    p.stored? ((tx.commit db token).run.run Memory.receive w).2.store.tables =
      (tx.buffer.writesTo p).foldl Write.leave (p.stored? w.store.tables) := by
  obtain ⟨state, hfold, hfinal⟩ := exists_fold_of_commit hrows.requireActive h
  have hwrites : ∀ v ∈ tx.buffer.writes, v.table = p.table → t.Carries v.row ∧
      (v.isPut = false → t.IsKey v.row) ∧ v.KeepsKey t.keys := by
    intro v hv htable
    obtain ⟨u', hu', hcarries, hisKey⟩ := hrows.keyed v hv
    obtain rfl := Option.some.inj (hu.symm.trans (htable ▸ hu'))
    exact ⟨(Table.carries_congr hkeys).mpr hcarries, fun hput => (hisKey hput).congr hkeys.symm,
      hkeys ▸ hfiled v hv u hu'⟩
  obtain ⟨t', ht', hafter⟩ := Memory.find?_foldlM_transactOne (hkey.congr hkeys.symm) ht rfl hwell
    hwrites hfold
  rw [hfinal, Place.stored?_eq ht', Place.stored?_eq ht, hafter]
  rfl

/-! ## Calls about other rows -/

/-- Whether it succeeds or fails, a call about a row changes nothing else. -/
theorem apart_afterCall {σ : Type} {client : Client σ} {state : Transaction × World σ} {call : Call}
    (hrows : state.1.buffer.OnePerRow tables) (hkeys : db.KeysIn tables)
    (hp : call.place? db = some p) : Apart tables p state.1 (afterCall db client state call).1 := by
  have hensures := (ensures_outcome client hrows hkeys call state.2 trivial).2
  unfold afterCall
  cases hrun : (call.run db state.1).run.run client state.2 with
  | mk result world =>
    rw [hrun] at hensures
    cases result with
    | error fault => exact apart_self tables p state.1
    | ok tx =>
      obtain ⟨q, hq, houtcome⟩ := hensures
      obtain rfl := Option.some.inj (hp.symm.trans hq)
      exact houtcome.apart hrows (Call.isKeyed_of_place? hkeys hp)

/-- If no two rows that are called about share an identifier, a call about one row leaves what is known of
another row as it was, whichever calls have been made before. In whatever state the store is then, reading
the other row by its key ends as it would have ended without the call. So does updating it, unless the
transaction has no room for another write. If the transaction can be committed with and without the call, the
two commits leave the other row alike. -/
theorem afterCall_spares {w : World Memory} (hkeys : db.KeysIn w.store.tables) {calls : List Call}
    {call : Call} (hp : call.place? db = some p) (hg : target db model conditions = .ok g)
    (hother : ¬p.SameRow g.place)
    (hids : Place.ToldApart (g.place :: (calls ++ [call]).filterMap (Call.place? db))) :
    let before := afterCalls db Memory.receive ({}, w) calls
    let after := afterCall db Memory.receive before call
    p.id ≠ g.place.id ∧ after.1.record g.place = before.1.record g.place ∧
      (∀ q : FindQuery, q.model = model → q.conditions = conditions →
        q.Retains db.resolver g.keys.attributes → ∀ v : World Memory,
        (after.1.findOne db q).run.run Memory.receive v =
          (before.1.findOne db q).run.run Memory.receive v) ∧
      (∀ (patch : Item) (v : World Memory),
        let ended := (before.1.update db model conditions patch).run.run Memory.receive v
        let ended' := (after.1.update db model conditions patch).run.run Memory.receive v
        ended'.2 = ended.2 ∧ Alike g.place ended.1 ended'.1) ∧
      ∀ (v : World Memory) (token : String), db.KeysIn v.store.tables → v.store.WellKeyed →
        let ended := (before.1.commit db token).run.run Memory.receive v
        let ended' := (after.1.commit db token).run.run Memory.receive v
        ended.1 = .ok () → ended'.1 = .ok () →
        g.place.stored? ended'.2.store.tables = g.place.stored? ended.2.store.tables := by
  intro before after
  have hpkeyed := Call.isKeyed_of_place? hkeys hp
  obtain ⟨t, ht, hgkeys, hgkey⟩ := Target.isKeyed hkeys hg
  have hgkeyed : g.place.IsKeyed w.store.tables := ⟨t, ht, hgkey⟩
  generalize hplaces : g.place :: (calls ++ [call]).filterMap (Call.place? db) = places at hids
  have hgmem : g.place ∈ places := hplaces ▸ List.mem_cons_self
  have hmem : ∀ c ∈ calls ++ [call], ∀ a ∈ c.place? db, a ∈ places := fun c hc a ha =>
    hplaces ▸ List.mem_cons_of_mem _ (List.mem_filterMap.mpr ⟨c, hc, ha⟩)
  have hkeyed : ∀ a ∈ places, a.IsKeyed w.store.tables := by
    intro a ha
    rcases List.mem_cons.mp (hplaces ▸ ha) with rfl | ha
    · exact hgkeyed
    · obtain ⟨c, -, hc⟩ := List.mem_filterMap.mp ha
      exact Call.isKeyed_of_place? hkeys hc
  have hpmem := hmem call (by simp) p hp
  have hbeside : g.Beside w.store.tables places p := ⟨hkeyed, fun a ha => hids a ha p hpmem, hpkeyed,
    hgkeyed, hother, fun item => hasKey_of_matchesAll (target_eq_ok hg).2.2.2⟩
  have htold : ∀ c ∈ calls ++ [call], ∀ a ∈ c.place? db,
      a ∈ places ∧ ∀ b ∈ places, b.id = a.id → b.SameRow a :=
    fun c hc a ha => ⟨hmem c hc a ha, fun b hb => hids b hb a (hmem c hc a ha)⟩
  -- What holds of the transaction before and after the call.
  have hkeeps : Keeps w.store.tables places before.1 := (keeps_empty _ _).afterCalls hkeys
    Memory.receive fun c hc => hmem c (List.mem_append_left _ hc)
  have hkeeps' := hkeeps.afterCall hkeys Memory.receive (hmem call (by simp))
  have hfiled : Filed w.store.tables places before.1 := (filed_empty _ _).afterCalls hkeys fun c hc =>
    htold c (List.mem_append_left _ hc)
  have hfiled' := hfiled.afterCall hkeys (htold call (by simp))
  have hapart : Apart w.store.tables p before.1 after.1 :=
    apart_afterCall hkeeps.onePerRow hkeys hp
  have hid : p.id ≠ g.place.id := fun h => hother (hids p hpmem g.place hgmem h)
  have hactive := hkeeps.onePerRow.requireActive
  have hactive' : after.1.buffer.requireActive = .ok () := hkeeps'.onePerRow.requireActive
  have hmatching : Matching g.place before.1 after.1 :=
    ⟨hactive, hactive', hapart.record_eq hgkeyed hother hid, hapart.length_le⟩
  refine ⟨hid, hmatching.record_eq, ?_, fun patch v => hmatching.run_update hg patch _ v, ?_⟩
  · rintro q rfl rfl hretains v
    refine run_findOne_congr hg hretains ?_ (fun key row hkey hrow => ?_) v
    · exact hbeside.ownRow?_eq hactive hactive' hfiled hfiled' hapart
    · exact hbeside.seenRow?_eq hactive hactive' hapart ht hgkeys hkey hrow
  · intro v token hv hwell ended ended' hended hended'
    obtain ⟨u, hu, hukeys, -⟩ := Target.isKeyed hv hg
    have hsame : u.keys = t.keys := hukeys.trans hgkeys.symm
    have hbefore := stored?_of_commit hkeeps.onePerRow hfiled.keepsKey (p := g.place) ht hgkey hu
      hsame (hwell _ u hu) hended
    have hafter := stored?_of_commit hkeeps'.onePerRow hfiled'.keepsKey (p := g.place) ht hgkey hu
      hsame (hwell _ u hu) hended'
    exact hafter.trans ((congrArg _ hmatching.writesTo_eq).trans hbefore.symm)

/-- A file is changed, and another one in the same folder is deleted. Paths of files may have slashes, since
the folder comes first. -/
theorem afterCall_spares_files :
    let file : ModelDef :=
      { name := "file", table := "files", primaryKey := { partition := "folder", sort := some "path" } }
    let row (path : String) (size : Int) : Item :=
      [("folder", .str "home"), ("path", .str path), ("size", .num (.int size))]
    let store := (Memory.ofSchema (.ofModels [file]) none).seed "files"
      [.map (row "notes/a" 1), .map (row "b" 2)]
    let db : Database := { resolver := (Schema.ofModels [file]).resolver }
    let byKey (path : String) : List Condition :=
      [⟨"folder", none, .str "home", none⟩, ⟨"path", none, .str path, none⟩]
    let resize (path : String) (size : Int) : Call :=
      .update "file" (byKey path) [("size", .num (.int size))]
    let remove (path : String) : Call := .delete "file" (byKey path)
    let before := afterCalls db Memory.receive ({}, { store }) [resize "notes/a" 3]
    let after := afterCall db Memory.receive before (remove "b")
    let place : Place := ⟨"files", [("folder", .str "home"), ("path", .str "notes/a")]⟩
    before.1.record place = after.1.record place ∧ (before.1.record place).1.length = 1 ∧
      ∀ patch, Alike place
        ((before.1.update db "file" (byKey "notes/a") patch).run.run Memory.receive after.2).1
        ((after.1.update db "file" (byKey "notes/a") patch).run.run Memory.receive after.2).1 := by
  intro file row store db byKey resize remove before after place
  have hs : (Schema.ofModels [file]).TablesApart := by unfold Schema.TablesApart; decide +kernel
  have hkeys : db.KeysIn store.tables :=
    Database.keysIn hs ((Memory.isOf_ofSchema _ _).seed "files" _) rfl
  have hplace : (target db "file" (byKey "notes/a")).map Target.place = .ok place := by decide +kernel
  obtain ⟨g, hg, hgplace⟩ := exists_of_map_eq_ok hplace
  have hp : Call.place? db (remove "b") =
      some ⟨"files", [("folder", .str "home"), ("path", .str "b")]⟩ := by decide +kernel
  have hkeyed : ∀ p ∈ place :: ([resize "notes/a" 3] ++ [remove "b"]).filterMap (Call.place? db),
      p.IsKeyed store.tables := by
    refine List.forall_mem_cons.mpr ⟨?_, fun p hp => ?_⟩
    · have hcall : Call.place? db (resize "notes/a" 3) = some place := by decide +kernel
      exact Call.isKeyed_of_place? hkeys hcall
    · obtain ⟨call, -, hcall⟩ := List.mem_filterMap.mp hp
      exact Call.isKeyed_of_place? hkeys hcall
  have hids : Place.ToldApart (place ::
      ([resize "notes/a" 3] ++ [remove "b"]).filterMap (Call.place? db)) :=
    Place.toldApart_of_slashFree hkeyed (by decide +kernel)
  rw [← hgplace] at hids
  obtain ⟨-, hrecord, -, hupdate, -⟩ := afterCall_spares (w := { store }) hkeys hp hg
    (by rw [hgplace]; decide +kernel) hids
  rw [hgplace] at hrecord hupdate
  exact ⟨hrecord.symm, by decide +kernel, fun patch => (hupdate patch after.2).2⟩

/-- Two files whose folders and names make up one identifier. Behind an update of the first one the second
one is not found to be updated, and nothing is staged for it. -/
theorem not_afterCall_spares :
    let file : ModelDef :=
      { name := "file", table := "files", primaryKey := { partition := "folder", sort := some "path" } }
    let key (folder path : String) : Item := [("folder", .str folder), ("path", .str path)]
    let store := (Memory.ofSchema (.ofModels [file]) none).seed "files"
      [.map (key "a/s:b" "c"), .map (key "a" "b/s:c")]
    let db : Database := { resolver := (Schema.ofModels [file]).resolver }
    let byKey (folder path : String) : List Condition :=
      [⟨"folder", none, .str folder, none⟩, ⟨"path", none, .str path, none⟩]
    let call : Call := .update "file" (byKey "a/s:b" "c") [("n", .num (.int 1))]
    let after := afterCall db Memory.receive ({}, { store }) call
    let updated (tx : Transaction) :=
      ((tx.update db "file" (byKey "a" "b/s:c") [("n", .num (.int 2))]).run.run Memory.receive { store }).1
    let place : Place := ⟨"files", key "a" "b/s:c"⟩
    call.place? db = some ⟨"files", key "a/s:b" "c"⟩ ∧
      ¬Place.SameRow ⟨"files", key "a/s:b" "c"⟩ place ∧
      Place.id ⟨"files", key "a/s:b" "c"⟩ = place.id ∧
      (updated {}).map (fun result => (result.1, result.2.buffer.writes.length)) =
        .ok (some [("folder", .str "a"), ("n", .num (.int 2)), ("path", .str "b/s:c")], 1) ∧
      (updated after.1).map Prod.fst = .ok none ∧ ((after.1.record place).1 = []) := by
  decide +kernel

end Transaction

end KeyedQuery
