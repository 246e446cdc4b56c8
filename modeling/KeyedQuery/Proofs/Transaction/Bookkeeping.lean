import KeyedQuery.Proofs.Database.Conduct
import KeyedQuery.Proofs.Database.KeyReads
import KeyedQuery.Proofs.Transaction.Conduct

/-!
# What a transaction knows of a row

Of a row a transaction knows the writes to it and the update that is staged under its identifier
(`Transaction.record`). A call about another row leaves the writes alone, and the staged updates under
other identifiers (`Transaction.Outcome.apart`). If rows that are called about are told apart by their
identifiers, each staged update is of a row with the identifier, and the buffered updates leave every row its
key (`Transaction.Filed`, `Transaction.Filed.afterCalls`).
-/

namespace KeyedQuery

/-- Elements of which nothing comes can be left out of a search. -/
theorem findSome?_filter {α β : Type} {f : α → Option β} {p : α → Bool} : ∀ {xs : List α},
    (∀ a ∈ xs, p a = false → f a = none) → (xs.filter p).findSome? f = xs.findSome? f
  | [], _ => rfl
  | x :: xs, h => by
    obtain ⟨hx, hxs⟩ := List.forall_mem_cons.mp h
    rw [List.filter_cons]
    split
    · rw [List.findSome?_cons, List.findSome?_cons, findSome?_filter hxs]
    · rename_i hnot
      rw [List.findSome?_cons, hx (Bool.eq_false_iff.mpr hnot), findSome?_filter hxs]

/-! ## Writes to a row -/

/-- The write is to the row of a place. -/
def Write.isTo (p : Place) (w : Write) : Bool :=
  w.table = p.table ∧ w.targets p.key

theorem Write.isTo_iff {p : Place} {w : Write} :
    w.isTo p = true ↔ w.table = p.table ∧ w.targets p.key = true :=
  decide_eq_true_iff

theorem Write.IsKeyed.isTo_iff {tables : Fields Table} {p : Place} {w : Write} (h : w.IsKeyed tables)
    (hp : p.IsKeyed tables) : w.isTo p = true ↔ (w.place tables).SameRow p :=
  Write.isTo_iff.trans (h.targets_iff hp)

namespace WriteBuffer

variable {tables : Fields Table} {b b' c : WriteBuffer} {w : Write} {p q : Place}

/-- The writes to the row of a place. -/
def writesTo (b : WriteBuffer) (p : Place) : List Write :=
  b.writes.filter (Write.isTo p)

theorem position?_eq (b : WriteBuffer) (p : Place) :
    b.position? p.table p.key = lastPosition? (Write.isTo p) b.writes :=
  rfl

theorem write?_eq (b : WriteBuffer) (p : Place) : b.write? p = (b.writesTo p).getLast? := by
  rw [write?, position?_eq, writesTo]
  rcases lastPosition?_cases (Write.isTo p) b.writes with
    ⟨before, w, after, hwrites, hw, hafter, hlast⟩ | ⟨hnone, hlast⟩
  · rw [hlast, hwrites, List.filter_append, List.filter_cons_of_pos hw,
      List.filter_eq_nil_iff.mpr fun v hv => Bool.eq_false_iff.mp (hafter v hv)]
    simp
  · rw [hlast, List.filter_eq_nil_iff.mpr fun v hv => Bool.eq_false_iff.mp (hnone v hv)]
    rfl

theorem pending_eq (h : b.requireActive = .ok ()) (p : Place) :
    b.pending p.table p.key = .ok (b.writesTo p).getLast? := by
  unfold pending
  rw [h, ← write?_eq]
  rfl

/-- A write for its row is staged in place of the last one to the row, unless there is none and no room for
more. -/
theorem stage_cases (h : b.requireActive = .ok ()) (htable : w.table = p.table)
    (htargets : w.targets p.key = true) :
    (b.writesTo p = [] ∧ maxTransactionWrites ≤ b.writes.length ∧
      b.stage w p.key = .error (.transactionLimit maxTransactionWrites)) ∨
    (b.writesTo p = [] → b.writes.length < maxTransactionWrites) ∧ ∃ b', b.stage w p.key = .ok b' ∧
      b'.writesTo p = (b.writesTo p).dropLast ++ [w] := by
  have hw : w.isTo p = true := Write.isTo_iff.mpr ⟨htable, htargets⟩
  unfold stage
  rw [h, htable, position?_eq, writesTo]
  rcases lastPosition?_cases (Write.isTo p) b.writes with
    ⟨before, old, after, hwrites, hold, hafter, hlast⟩ | ⟨hnone, hlast⟩
  · have hnil := List.filter_eq_nil_iff.mpr fun v hv => Bool.eq_false_iff.mp (hafter v hv)
    refine .inr ⟨fun hempty => ?_, { b with writes := b.writes.set before.length w }, ?_, ?_⟩
    · rw [hwrites, List.filter_append, List.filter_cons_of_pos hold] at hempty
      simp at hempty
    · rw [hlast]
      rfl
    · rw [writesTo]
      dsimp only
      rw [hwrites, List.set_append_right _ _ (Nat.le_refl _), Nat.sub_self, List.set_cons_zero,
        List.filter_append, List.filter_append, List.filter_cons_of_pos hw,
        List.filter_cons_of_pos hold, hnil, List.dropLast_concat]
  · have hnil := List.filter_eq_nil_iff.mpr fun v hv => Bool.eq_false_iff.mp (hnone v hv)
    rw [hlast, hnil]
    by_cases hroom : maxTransactionWrites ≤ b.writes.length
    · refine .inl ⟨rfl, hroom, ?_⟩
      show b.add w = _
      simp only [add, h, if_pos hroom, bind, Except.bind]
    · refine .inr ⟨fun _ => Nat.lt_of_not_le hroom, { b with writes := b.writes ++ [w] }, ?_, ?_⟩
      · show b.add w = _
        simp only [add, h, if_neg hroom, bind, Except.bind]
      · rw [writesTo, List.filter_append, hnil, List.filter_cons_of_pos hw]
        rfl

/-- In two buffers with the same writes to its row a write is staged alike, unless the second one has no room
for more. -/
theorem stage_congr (h : b.requireActive = .ok ()) (h' : b'.requireActive = .ok ())
    (hwrites : b'.writesTo p = b.writesTo p) (hlength : b.writes.length ≤ b'.writes.length)
    (htable : w.table = p.table) (htargets : w.targets p.key = true) :
    b'.stage w p.key = .error (.transactionLimit maxTransactionWrites) ∨
      ∃ c c', b.stage w p.key = .ok c ∧ b'.stage w p.key = .ok c' ∧ c'.writesTo p = c.writesTo p := by
  rcases stage_cases h' htable htargets with ⟨-, -, hfull⟩ | ⟨hroom, c', hc', hwrites'⟩
  · exact .inl hfull
  rcases stage_cases h htable htargets with ⟨hempty, hfull, -⟩ | ⟨-, c, hc, hwritesTo⟩
  · exact absurd (hroom (hwrites.trans hempty)) (by omega)
  · exact .inr ⟨c, c', hc, hc', by rw [hwrites', hwritesTo, hwrites]⟩

/-- Rows that conditions for a key single out are put by writes to the key. -/
theorem search_eq (h : b.requireActive = .ok ()) {conditions : List NormalizedCondition}
    (hfixed : ∀ item, matchesAll conditions item = true → item.hasKey p.key = true) :
    b.search p.table conditions =
      .ok ((b.writesTo p).reverse.findSome? (putRow? p.table conditions)) := by
  have hothers : ∀ w ∈ b.writes.reverse, w.isTo p = false → putRow? p.table conditions w = none := by
    intro w _ hw
    cases w with
    | put name item =>
      refine if_neg fun hmatches => Bool.eq_false_iff.mp hw ?_
      exact Write.isTo_iff.mpr ⟨hmatches.1, hfixed item hmatches.2⟩
    | update name key expression attributes => rfl
    | delete name key => rfl
  unfold search
  rw [h, writesTo, ← List.filter_reverse, findSome?_filter hothers]
  rfl

namespace OnePerRow

theorem not_isTo (hw : w.IsKeyed tables) (hp : p.IsKeyed tables) (hq : q.IsKeyed tables)
    (hother : ¬p.SameRow q) (hsame : (w.place tables).SameRow p) : ¬w.isTo q = true := fun hto =>
  hother (hsame.symm.trans hp hw.place hq ((hw.isTo_iff hq).mp hto))

/-- Writes are to a row whichever of its keys they are looked up by. -/
theorem writesTo_congr (h : b.OnePerRow tables) (hp : p.IsKeyed tables) (hq : q.IsKeyed tables)
    (hsame : p.SameRow q) : b.writesTo p = b.writesTo q := by
  refine List.filter_congr fun w hw => Bool.eq_iff_iff.mpr ?_
  have hw := h.keyed w hw
  rw [hw.isTo_iff hp, hw.isTo_iff hq]
  exact ⟨fun hwp => hwp.trans hw.place hp hq hsame, fun hwq => hwq.trans hw.place hq hp hsame.symm⟩

/-- At most one write is to a row. -/
theorem writesTo_cases (h : b.OnePerRow tables) (hp : p.IsKeyed tables) :
    b.writesTo p = [] ∨ ∃ w ∈ b.writes, (w.place tables).SameRow p ∧ b.writesTo p = [w] := by
  have hto : ∀ w ∈ b.writesTo p, w ∈ b.writes ∧ (w.place tables).SameRow p := by
    intro w hw
    obtain ⟨hw, hto⟩ := List.mem_filter.mp hw
    exact ⟨hw, ((h.keyed w hw).isTo_iff hp).mp hto⟩
  have hapart := h.apart.filter (Write.isTo p)
  change (b.writesTo p).Pairwise _ at hapart
  generalize b.writesTo p = writes at hto hapart
  match writes with
  | [] => exact .inl rfl
  | [w] =>
    obtain ⟨hw, hsame⟩ := hto w List.mem_cons_self
    exact .inr ⟨w, hw, hsame, rfl⟩
  | v :: w :: rest =>
    obtain ⟨hv, hvsame⟩ := hto v List.mem_cons_self
    obtain ⟨hw, hwsame⟩ := hto w (List.mem_cons_of_mem v List.mem_cons_self)
    exact absurd (hvsame.trans (h.keyed v hv).place hp (h.keyed w hw).place hwsame.symm)
      ((List.pairwise_cons.mp hapart).1 w List.mem_cons_self)

/-- Staging a write for a row leaves the writes to another row alone, and takes none away. -/
theorem writesTo_stage (h : b.OnePerRow tables) (hw : w.IsKeyed tables) (hp : p.IsKeyed tables)
    (hsame : (w.place tables).SameRow p) (hstage : b.stage w p.key = .ok b') :
    (∀ q : Place, q.IsKeyed tables → ¬p.SameRow q → b'.writesTo q = b.writesTo q) ∧
      b.writes.length ≤ b'.writes.length := by
  rcases OnePerRow.stage_cases h hp hsame.1 hstage with
    ⟨before, old, after, hwrites, hold, rfl⟩ | ⟨-, -, rfl⟩
  · have hold' := h.keyed old (hwrites ▸ List.mem_append_right before List.mem_cons_self)
    refine ⟨fun q hq hother => ?_, by simp [hwrites]⟩
    unfold writesTo
    rw [hwrites, List.filter_append, List.filter_append,
      List.filter_cons_of_neg (not_isTo hw hp hq hother hsame),
      List.filter_cons_of_neg (not_isTo hold' hp hq hother hold)]
  · refine ⟨fun q hq hother => ?_, by simp⟩
    unfold writesTo
    rw [List.filter_append,
      List.filter_cons_of_neg (not_isTo hw hp hq hother hsame)]
    simp

end OnePerRow

end WriteBuffer

namespace Transaction

variable {db : Database} {tables : Fields Table} {places : List Place} {tx tx' : Transaction}
  {p q : Place} {model : String} {conditions : List Condition} {g : Target} {call : Call}

/-- What the transaction knows of the row of a place: the writes to it, and the update that is staged under
its identifier. -/
def record (tx : Transaction) (p : Place) : List Write × Option StagedUpdate :=
  (tx.buffer.writesTo p, Fields.get? tx.updates p.id)

/-! ## Calls about other rows -/

/-- The second transaction differs from the first one in writes to one row and in updates that are staged under
its identifier. -/
structure Apart (tables : Fields Table) (p : Place) (tx tx' : Transaction) : Prop where
  writesTo_eq : ∀ q : Place, q.IsKeyed tables → ¬p.SameRow q →
    tx'.buffer.writesTo q = tx.buffer.writesTo q
  erase_eq : Fields.erase tx'.updates p.id = Fields.erase tx.updates p.id
  length_le : tx.buffer.writes.length ≤ tx'.buffer.writes.length

theorem apart_self (tables : Fields Table) (p : Place) (tx : Transaction) : Apart tables p tx tx :=
  ⟨fun _ _ _ => rfl, rfl, Nat.le_refl _⟩

/-- The record of a row with another identifier is the same. -/
theorem Apart.record_eq (h : Apart tables p tx tx') (hq : q.IsKeyed tables) (hother : ¬p.SameRow q)
    (hid : p.id ≠ q.id) : tx'.record q = tx.record q := by
  have hupdates := congrArg (Fields.get? · q.id) h.erase_eq
  simp only [Fields.get?_erase, if_neg hid] at hupdates
  rw [record, record, h.writesTo_eq q hq hother, hupdates]

/-- Whatever a call about a row comes to, nothing else changes. -/
theorem Outcome.apart (h : tx.buffer.OnePerRow tables) (hp : p.IsKeyed tables)
    (houtcome : Outcome tables tx p tx') : Apart tables p tx tx' := by
  cases houtcome with
  | unchanged => exact apart_self tables p tx
  | updated u hw hplace hupdate hstage =>
    obtain ⟨hwrites, hlength⟩ := h.writesTo_stage hw hp (hplace ▸ hw.place.sameRow_refl) hstage
    exact ⟨hwrites, Fields.erase_insert _ _ _, hlength⟩
  | replaced hw hplace hupdate hstage =>
    obtain ⟨hwrites, hlength⟩ := h.writesTo_stage hw hp (hplace ▸ hw.place.sameRow_refl) hstage
    exact ⟨hwrites, Fields.erase_erase _ _, hlength⟩
  | rewritten hold hsame hold' hw hplace hupdate hstage =>
    obtain ⟨hwrites, hlength⟩ := h.writesTo_stage hw hp (hplace ▸ hsame) hstage
    exact ⟨hwrites, rfl, hlength⟩

end Transaction

/-! ## Staged updates and their rows -/

/-- The staged update is of the row of the place, and it leaves the row its key. -/
structure StagedUpdate.IsOf (tables : Fields Table) (p : Place) (u : StagedUpdate) : Prop where
  table_eq : u.table = p.table
  hasKey : u.next.hasKey p.key = true
  sameOn : ∀ t, Fields.get? tables p.table = some t → u.next.SameOn t.keys.attributes u.current

/-- It is of the row whichever of its keys the place is. -/
theorem StagedUpdate.IsOf.congr {tables : Fields Table} {p q : Place} {u : StagedUpdate}
    (h : u.IsOf tables p) (hp : p.IsKeyed tables) (hq : q.IsKeyed tables) (hsame : p.SameRow q) :
    u.IsOf tables q :=
  ⟨h.table_eq.trans hsame.1, hsame.hasKey hp hq h.hasKey, fun t ht => h.sameOn t (hsame.1 ▸ ht)⟩

theorem Table.IsKey.hasKey_congr {t : Table} {key a b : Item} (hkey : t.IsKey key)
    (h : a.SameOn t.keys.attributes b) : a.hasKey key = b.hasKey key := by
  rw [hkey.hasKey, hkey.hasKey, sameKey, sameKey, Bool.eq_iff_iff, Item.hasKey_iff (t.ordered_keyOf key),
    Item.hasKey_iff (t.ordered_keyOf key)]
  refine forall₂_congr fun k v => ?_
  rw [t.get?_keyOf]
  split
  · rename_i hk
    rw [h k hk]
  · simp

namespace Transaction

variable {db : Database} {tables : Fields Table} {places : List Place} {tx tx' : Transaction}
  {p q : Place} {model : String} {conditions : List Condition} {g : Target} {call : Call} {t : Table}
  {current next patch : Item} {result : Option Item × Transaction}

theorem retains_plain (db : Database) (model : String) (conditions : List Condition)
    (names : List String) : FindQuery.Retains db.resolver { model, conditions } names where
  selected fields hselect := by cases hselect
  label_notMem j hj := by cases hj

/-- Whatever tables there are, a row that is found under the conditions that fix a target has its key. -/
theorem ensures_findOne_hasKey {q : FindQuery} (hg : target db q.model q.conditions = .ok g)
    (hretains : q.Retains db.resolver g.keys.attributes) {pageSize : Option Nat} :
    Run.Ensures Memory.receive (Memory.Holds tables pageSize False) (db.findOne q)
      (fun found => ∀ row, found = some row → row.hasKey g.key = true) (fun _ => True) := by
  obtain ⟨-, hprimary, hconditions, hfixed⟩ := target_eq_ok hg
  refine (Database.ensures_findOne_hasKey hprimary hconditions hfixed hretains).imp
    (fun found hfound row hrow => ?_) fun _ h => h
  obtain ⟨source, hsource, hsame⟩ := hfound row hrow
  have hkey : Table.IsKey { keys := g.keys } g.key := isKey_of_keyOfConditions hfixed
  exact (hkey.hasKey_congr hsame).trans hsource

/-- Each staged update is of one of the rows with its identifier, and the buffered updates leave every row its
key. -/
structure Filed (tables : Fields Table) (places : List Place) (tx : Transaction) : Prop where
  keepsKey : ∀ w ∈ tx.buffer.writes, ∀ t, Fields.get? tables w.table = some t → w.KeepsKey t.keys
  updates : ∀ field ∈ tx.updates, ∃ p ∈ places, p.id = field.1 ∧ field.2.IsOf tables p

theorem filed_empty (tables : Fields Table) (places : List Place) : Filed tables places {} :=
  ⟨by simp, by simp⟩

namespace Filed

theorem keepsKey_stage (h : Filed tables places tx) {w : Write} {key : Item} {b : WriteBuffer}
    (hw : ∀ t, Fields.get? tables w.table = some t → w.KeepsKey t.keys)
    (hstage : tx.buffer.stage w key = .ok b) :
    ∀ v ∈ b.writes, ∀ t, Fields.get? tables v.table = some t → v.KeepsKey t.keys := by
  intro v hv
  rcases WriteBuffer.mem_of_mem_stage hstage hv with rfl | hv
  · exact hw
  · exact h.keepsKey v hv

/-- A row is put or deleted. -/
theorem erase (h : Filed tables places tx) {w : Write} {key : Item} {b : WriteBuffer}
    (hupdate : w.isUpdate = false) (hstage : tx.buffer.stage w key = .ok b) (id : String) :
    Filed tables places ⟨b, Fields.erase tx.updates id⟩ where
  keepsKey := h.keepsKey_stage (fun _ _ => Write.keepsKey_of_isUpdate_eq_false hupdate) hstage
  updates field hfield := h.updates field (List.mem_filter.mp hfield).1

theorem create (h : Filed tables places tx) {data : Item} {created : Item × Transaction}
    (hresult : tx.create db model data = .ok created) : Filed tables places created.2 := by
  obtain ⟨table, key, item, b, -, hstage, rfl⟩ := create_cases hresult
  exact h.erase rfl hstage _

theorem delete (h : Filed tables places tx) (hresult : tx.delete db model conditions = .ok tx') :
    Filed tables places tx' := by
  obtain ⟨g, b, -, hstage, rfl⟩ := delete_cases hresult
  exact h.erase rfl hstage _

theorem changePut (h : Filed tables places tx) {item : Item}
    (hresult : tx.changePut db model g item patch = .ok result) : Filed tables places result.2 := by
  rcases changePut_cases hresult with ⟨-, b, hstage, rfl⟩ | ⟨-, rfl⟩
  · exact ⟨h.keepsKey_stage (fun _ _ => Write.keepsKey_of_isUpdate_eq_false rfl) hstage, h.updates⟩
  · exact h

/-- An update of a row is staged under the identifier of the row. -/
theorem stageUpdate (h : Filed tables places tx) (hmem : g.place ∈ places)
    (ht : Fields.get? tables g.table = some t) (hnext : next.hasKey g.key = true)
    (hsame : next.SameOn t.keys.attributes current)
    (hresult : tx.stageUpdate g current next = .ok result) : Filed tables places result.2 := by
  obtain ⟨change, b, hchange, hstage, rfl⟩ := stageUpdate_cases hresult
  have hkept : ∀ u, Fields.get? tables g.table = some u → next.SameOn u.keys.attributes current := by
    intro u hu
    obtain rfl := Option.some.inj (ht.symm.trans hu)
    exact hsame
  refine ⟨h.keepsKey_stage (fun u hu => Write.keepsKey_of_between hchange (hkept u hu)) hstage,
    fun field hfield => ?_⟩
  rcases Fields.mem_insert hfield with rfl | hfield
  · exact ⟨g.place, hmem, rfl, rfl, hnext, hkept⟩
  · exact h.updates field hfield

/-- A staged update is extended for the row that it is of, if no other one has the identifier. -/
theorem extendUpdate (h : Filed tables places tx) (hmem : g.place ∈ places)
    (hids : ∀ a ∈ places, a.id = g.place.id → a.SameRow g.place)
    (ht : Fields.get? tables g.table = some t) (hgkeys : t.keys = g.keys)
    (hfixed : keyOfConditions model t.keys g.conditions = .ok g.key) {staged : StagedUpdate}
    (hstaged : Fields.get? tx.updates g.id = some staged)
    (hresult : tx.extendUpdate db model g staged patch = .ok result) :
    Filed tables places result.2 := by
  rcases extendUpdate_cases hresult with ⟨hmatches, hresult⟩ | ⟨-, rfl⟩
  · have hpatched : (db.patchedRow model g.keys staged.next patch).SameOn t.keys.attributes
        staged.next := Database.sameOn_patchedRow hgkeys staged.next patch
    obtain ⟨a, ha, hid, hof⟩ := h.updates _ (Fields.mem_of_get?_eq_some hstaged)
    have htable : a.table = g.table := (hids a ha hid).1
    have hcurrent := hof.sameOn t (htable ▸ ht)
    refine h.stageUpdate hmem ht ?_ (fun k hk => (hpatched k hk).trans (hcurrent k hk)) hresult
    rw [(isKey_of_keyOfConditions hfixed).hasKey_congr hpatched]
    exact hasKey_of_matchesAll hfixed hmatches
  · exact h

theorem ensures_call (h : Filed tables places tx) (hkeys : db.KeysIn tables)
    (hcall : ∀ p ∈ call.place? db, p ∈ places ∧ ∀ a ∈ places, a.id = p.id → a.SameRow p)
    {stored : Fields Table} {pageSize : Option Nat} :
    Run.Ensures Memory.receive (Memory.Holds stored pageSize False) (call.run db tx)
      (fun tx' => Filed tables places tx') (fun _ => True) := by
  cases call with
  | create model data =>
    refine .ofExcept (fun tx' hresult => ?_) fun _ _ => trivial
    obtain ⟨created, hcreate, rfl⟩ := exists_of_map_eq_ok hresult
    exact h.create hcreate
  | update model conditions patch =>
    have hfind : ∀ g, target db model conditions = .ok g →
        Run.Ensures Memory.receive (Memory.Holds stored pageSize False)
          (db.findOne { model, conditions }) (fun found => ∀ row, found = some row →
            ∀ g, target db model conditions = .ok g → row.hasKey g.key = true) (fun _ => True) := by
      intro g hg
      refine (ensures_findOne_hasKey hg (retains_plain db model conditions _)).imp
        (fun found hfound row hrow g' hg' => ?_) fun _ h => h
      obtain rfl := Except.ok.inj (hg.symm.trans hg')
      exact hfound row hrow
    refine (ensures_update_revised hfind).bind ?_
    rintro result ⟨g, hg, hrevised⟩
    obtain ⟨t, ht, hgkeys, hkey⟩ := Target.isKeyed hkeys hg
    have hfixed : keyOfConditions model t.keys g.conditions = .ok g.key :=
      hgkeys ▸ (target_eq_ok hg).2.2.2
    obtain ⟨hmem, hids⟩ := hcall g.place (by rw [Call.place?, Call.effect?, hg]; rfl)
    refine .pure ?_
    cases hrevised with
    | missing => exact h
    | put _ hresult => exact h.changePut hresult
    | extended hstaged hresult => exact h.extendUpdate hmem hids ht hgkeys hfixed hstaged hresult
    | @read current _ hcurrent hresult =>
      have hpatched : (db.patchedRow model g.keys current patch).SameOn t.keys.attributes current :=
        Database.sameOn_patchedRow hgkeys current patch
      exact h.stageUpdate hmem ht ((hkey.hasKey_congr hpatched).trans (hcurrent g hg)) hpatched
        hresult
  | delete model conditions =>
    exact .ofExcept (fun tx' hresult => h.delete hresult) fun _ _ => trivial

/-- A call keeps what is filed, whether it succeeds or fails. -/
theorem afterCall {state : Transaction × World Memory} (h : Filed tables places state.1)
    (hkeys : db.KeysIn tables)
    (hcall : ∀ p ∈ call.place? db, p ∈ places ∧ ∀ a ∈ places, a.id = p.id → a.SameRow p) :
    Filed tables places (Transaction.afterCall db Memory.receive state call).1 := by
  have hensures := (h.ensures_call hkeys hcall state.2
    ⟨rfl, rfl, False.elim, False.elim⟩).2
  unfold Transaction.afterCall
  cases hrun : (call.run db state.1).run.run Memory.receive state.2 with
  | mk result world =>
    rw [hrun] at hensures
    cases result with
    | error fault => exact h
    | ok tx => exact hensures

/-- Calls one after another keep what is filed. -/
theorem afterCalls {state : Transaction × World Memory} (h : Filed tables places state.1)
    (hkeys : db.KeysIn tables) {calls : List Call}
    (hcalls : ∀ call ∈ calls, ∀ p ∈ call.place? db,
      p ∈ places ∧ ∀ a ∈ places, a.id = p.id → a.SameRow p) :
    Filed tables places (Transaction.afterCalls db Memory.receive state calls).1 := by
  induction calls generalizing state with
  | nil => exact h
  | cons call calls ih =>
    obtain ⟨hcall, hrest⟩ := List.forall_mem_cons.mp hcalls
    exact ih (h.afterCall hkeys hcall) hrest

end Filed

end Transaction

end KeyedQuery
