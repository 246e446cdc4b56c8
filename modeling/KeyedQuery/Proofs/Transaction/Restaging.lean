import KeyedQuery.Proofs.Transaction.Neighbours
import KeyedQuery.Proofs.Transaction.Origins

/-!
# Rows that are updated again

Of a stored row that it neither puts nor deletes, a transaction knows nothing or one update, which leads from
the row as it is stored to the row as the transaction sees it (`Transaction.exists_shows_ofCalls`). A further
update puts its patch over the latter, but what comes of it is compared with the former
(`Transaction.Shows.updatesFrom`). So an update that takes back what was staged before is refused as one
that changes nothing, and one that changes nothing is staged again (`Transaction.ofCalls_update_iff`).
-/

namespace KeyedQuery

/-- A search that comes to nothing but at one name looks that name up. -/
theorem Fields.findSome?_eq_bind {α β : Type} {f : String × α → Option β} {k : String} :
    ∀ {fs : Fields α}, (∀ field ∈ fs, field.1 ≠ k → f field = none) →
      (∀ v, get? fs k = some v → (f (k, v)).isSome) →
      fs.findSome? f = (get? fs k).bind fun v => f (k, v)
  | [], _, _ => rfl
  | (name, v) :: fs, hothers, hown => by
    rw [get?_cons] at hown ⊢
    by_cases hname : name = k
    · subst hname
      rw [if_pos rfl] at hown ⊢
      obtain ⟨b, hb⟩ := Option.isSome_iff_exists.mp (hown v rfl)
      rw [List.findSome?_cons, Option.bind_some, hb]
    · rw [if_neg hname] at hown ⊢
      rw [List.findSome?_cons, hothers _ List.mem_cons_self hname]
      exact findSome?_eq_bind (fun field hfield => hothers field (List.mem_cons_of_mem _ hfield)) hown

namespace Place

variable {tables : Fields Table} {places : List Place}

/-- Places have one identifier exactly if they are of one row. -/
def Identified (places : List Place) : Prop :=
  ∀ a ∈ places, ∀ b ∈ places, a.id = b.id ↔ a.SameRow b

instance (places : List Place) : Decidable (Identified places) :=
  inferInstanceAs (Decidable (∀ a ∈ places, ∀ b ∈ places, a.id = b.id ↔ a.SameRow b))

/-- Keys that are told apart and consist of texts, truth values and integers told apart by their groups have
one identifier each. -/
theorem ToldApart.identified (h : ToldApart places) (hkeyed : ∀ p ∈ places, p.IsKeyed tables)
    (hexact : ∀ p ∈ places, ∀ field ∈ p.key, field.2.IsExact) : Identified places := fun a ha b hb =>
  ⟨h a ha b hb, SameRow.id_eq (hkeyed a ha) (hkeyed b hb) (hexact a ha) (hexact b hb)⟩

end Place

namespace Transaction

variable {db : Database} {tables : Fields Table} {places : List Place} {tx tx' : Transaction}
  {model : String} {conditions : List Condition} {g : Target} {t : Table} {row seen next : Item}

/-! ## What is shown of a row -/

/-- Places of the tables have one identifier each, and that of the target row is one of them. -/
structure Target.Known (tables : Fields Table) (places : List Place) (g : Target) : Prop where
  keyed : ∀ a ∈ places, a.IsKeyed tables
  identified : Place.Identified places
  mem : g.place ∈ places

/-- The target row and the rows that are called about have keys. -/
theorem Target.keyed_places (hkeys : db.KeysIn tables) (htarget : target db model conditions = .ok g)
    (calls : List Call) : ∀ p ∈ g.place :: calls.filterMap (Call.place? db), p.IsKeyed tables := by
  obtain ⟨t, ht, -, hgkey⟩ := Target.isKeyed hkeys htarget
  refine List.forall_mem_cons.mpr ⟨⟨t, ht, hgkey⟩, fun p hp => ?_⟩
  obtain ⟨call, -, hcall⟩ := List.mem_filterMap.mp hp
  exact Call.isKeyed_of_place? hkeys hcall

/-- Of the target row the transaction knows nothing, and shows it as it is stored, or it knows an update
from the row as it is stored to the row that it shows. -/
inductive Shows (tables : Fields Table) (tx : Transaction) (g : Target) (row : Item) : Item → Prop where
  | stored (h : tx.record g.place = ([], none)) : Shows tables tx g row row
  | updated {w : Write} {next : Item} (hupdate : w.isUpdate = true)
      (hof : StagedUpdate.IsOf tables g.place ⟨g.table, row, next⟩)
      (h : tx.record g.place = ([w], some ⟨g.table, row, next⟩)) : Shows tables tx g row next

/-- A stored row that is neither put nor deleted is shown. -/
theorem exists_shows (hg : g.Known tables places) (hkeeps : Keeps tables places tx)
    (hfiled : Filed tables places tx) (hdrawn : Drawn tables tx)
    (hunique : ∀ t, Fields.get? tables g.table = some t → t.Unique)
    (hstored : g.place.stored? tables = some row)
    (hwrites : ∀ v ∈ tx.buffer.writesTo g.place, v.isUpdate = true) :
    ∃ seen, Shows tables tx g row seen := by
  have hplace := hg.keyed _ hg.mem
  have hrows := hkeeps.onePerRow
  rcases hrows.writesTo_cases hplace with hnone | ⟨w, hw, hsame, hone⟩
  · refine ⟨row, .stored (Prod.ext hnone (Option.not_isSome_iff_eq_none.mp fun hsome => ?_))⟩
    obtain ⟨v, hv, -, hid⟩ := hkeeps.backed (fun p hp q hq => (hg.identified p hp q hq).mpr) _ hsome
    have hsame := (hg.identified _ (hkeeps.known v hv) _ hg.mem).mp hid
    have hmem : v ∈ tx.buffer.writesTo g.place :=
      List.mem_filter.mpr ⟨hv, ((hrows.keyed v hv).isTo_iff hplace).mpr hsame⟩
    rw [hnone] at hmem
    cases hmem
  · have hupdate := hwrites w (hone ▸ List.mem_cons_self)
    obtain ⟨⟨table, current, next⟩, hu⟩ := Option.isSome_iff_exists.mp
      (hkeeps.recorded (fun p hp q hq => (hg.identified p hp q hq).mp) w hw hupdate)
    rw [(hg.identified _ (hkeeps.known w hw) _ hg.mem).mpr hsame] at hu
    have hfield := Fields.mem_of_get?_eq_some hu
    obtain ⟨a, ha, haid, hof⟩ := hfiled.updates _ hfield
    have hasame := (hg.identified a ha _ hg.mem).mp haid
    have hof := hof.congr (hg.keyed a ha) hplace hasame
    obtain rfl : table = g.table := hof.table_eq
    obtain ⟨t, ht, hmem⟩ := hdrawn _ hfield
    have hgkey := hplace.isKey (p := g.place) ht
    have hcurrent : current.hasKey g.key = true :=
      (hgkey.hasKey_congr (hof.sameOn t ht)).symm.trans hof.hasKey
    rw [Place.stored?_eq (p := g.place) ht] at hstored
    obtain rfl : current = row :=
      Option.some.inj (((hunique t ht).find?_eq_some hgkey hmem hcurrent).symm.trans hstored)
    exact ⟨next, .updated hupdate hof (Prod.ext hone hu)⟩

/-- After calls about such rows a stored row that is neither put nor deleted is shown. -/
theorem exists_shows_ofCalls {w : World Memory} (hkeys : db.KeysIn w.store.tables)
    (hg : g.Known w.store.tables places) {calls : List Call}
    (hcalls : ∀ call ∈ calls, ∀ p ∈ call.place? db, p ∈ places)
    (hunique : ∀ t, Fields.get? w.store.tables g.table = some t → t.Unique)
    (hstored : g.place.stored? w.store.tables = some row)
    (hwrites : ∀ v ∈ (ofCalls db Memory.receive w calls).buffer.writesTo g.place, v.isUpdate = true) :
    (ofCalls db Memory.receive w calls).buffer.OnePerRow w.store.tables ∧
      Filed w.store.tables places (ofCalls db Memory.receive w calls) ∧
      ∃ seen, Shows w.store.tables (ofCalls db Memory.receive w calls) g row seen := by
  have htold : ∀ call ∈ calls, ∀ p ∈ call.place? db,
      p ∈ places ∧ ∀ a ∈ places, a.id = p.id → a.SameRow p := fun call hcall p hp =>
    ⟨hcalls call hcall p hp, fun a ha => (hg.identified a ha p (hcalls call hcall p hp)).mp⟩
  have hkeeps : Keeps w.store.tables places (ofCalls db Memory.receive w calls) :=
    (keeps_empty _ _).afterCalls hkeys Memory.receive hcalls
  have hfiled : Filed w.store.tables places (ofCalls db Memory.receive w calls) :=
    (filed_empty _ _).afterCalls hkeys htold
  have hdrawn : Drawn w.store.tables (ofCalls db Memory.receive w calls) :=
    (drawn_empty _).afterCalls (filed_empty _ _) rfl hkeys htold
  exact ⟨hkeeps.onePerRow, hfiled, exists_shows hg hkeeps hfiled hdrawn hunique hstored hwrites⟩

namespace Shows

/-! ## Reading the row -/

theorem rowAt_eq (h : Shows tables tx g row seen) (hstored : g.place.stored? tables = some row) :
    tx.rowAt tables g.place = some seen := by
  cases h with
  | stored h =>
    have hwrite : tx.buffer.write? g.place = none := by
      rw [WriteBuffer.write?_eq, show tx.buffer.writesTo g.place = [] from congrArg Prod.fst h]
      rfl
    rw [rowAt_of_unwritten hwrite, hstored]
  | @updated w _ hupdate hof h =>
    have hwrite : tx.buffer.write? g.place = some w := by
      rw [WriteBuffer.write?_eq, show tx.buffer.writesTo g.place = [w] from congrArg Prod.fst h]
      rfl
    rw [rowAt_of_write? hwrite]
    cases w with
    | update name key expression attributes =>
      exact congrArg (Option.map StagedUpdate.next) (congrArg Prod.snd h)
    | put _ _ | delete _ _ => cases hupdate

theorem search_eq_none (h : Shows tables tx g row seen) (hactive : tx.buffer.requireActive = .ok ())
    (hfixed : keyOfConditions model g.keys g.conditions = .ok g.key) :
    tx.buffer.search g.table g.conditions = .ok none := by
  refine (WriteBuffer.search_eq (p := g.place) hactive fun item => hasKey_of_matchesAll hfixed).trans ?_
  cases h with
  | stored h =>
    rw [show tx.buffer.writesTo g.place = [] from congrArg Prod.fst h]
    rfl
  | @updated w _ hupdate hof h =>
    rw [show tx.buffer.writesTo g.place = [w] from congrArg Prod.fst h]
    cases w with
    | update name key expression attributes => rfl
    | put _ _ | delete _ _ => cases hupdate

/-- Among the staged updates the conditions find the one of the target row. -/
theorem updatedRow?_eq (h : Shows tables tx g row seen) (hg : g.Known tables places)
    (hfiled : Filed tables places tx) (hfixes : FixesKey g.keys g.conditions)
    (hfixed : keyOfConditions model g.keys g.conditions = .ok g.key) :
    tx.updatedRow? g.table g.conditions =
      (Fields.get? tx.updates g.id).map StagedUpdate.next := by
  have hown : ∀ u, Fields.get? tx.updates g.id = some u →
      u.table = g.table ∧ matchesAll g.conditions u.next = true := by
    intro u hu
    cases h with
    | stored h => cases hu.symm.trans (congrArg Prod.snd h)
    | updated hupdate hof h =>
      obtain rfl := Option.some.inj (hu.symm.trans (congrArg Prod.snd h))
      exact ⟨rfl, (hfixes.matchesAll_eq_hasKey hfixed _).trans hof.hasKey⟩
  refine (Fields.findSome?_eq_bind (k := g.id) (fun field hfield hne => if_neg fun hmatches => hne ?_)
    fun u hu => ?_).trans ?_
  · obtain ⟨a, ha, haid, hof⟩ := hfiled.updates field hfield
    have hsame := (hg.keyed a ha).sameRow_of_hasKey (hg.keyed _ hg.mem)
      (hof.table_eq.symm.trans hmatches.1) hof.hasKey (hasKey_of_matchesAll hfixed hmatches.2)
    exact haid.symm.trans ((hg.identified a ha _ hg.mem).mpr hsame)
  · dsimp only
    rw [if_pos (hown u hu)]
    rfl
  · cases hu : Fields.get? tx.updates g.id with
    | none => rfl
    | some u => exact if_pos (hown u hu)

/-- The transaction has the row of its own if it updates it. -/
theorem ownRow?_eq (h : Shows tables tx g row seen) (hg : g.Known tables places)
    (hfiled : Filed tables places tx) (hactive : tx.buffer.requireActive = .ok ())
    (hfixes : FixesKey g.keys g.conditions)
    (hfixed : keyOfConditions model g.keys g.conditions = .ok g.key) :
    tx.ownRow? g.table g.conditions = .ok ((Fields.get? tx.updates g.id).map StagedUpdate.next) := by
  unfold ownRow?
  rw [h.search_eq_none hactive hfixed, ← h.updatedRow?_eq hg hfiled hfixes hfixed]
  rfl

/-- A row that is not written is passed on as it is stored. -/
theorem seenRow?_eq (hunwritten : tx.buffer.writesTo g.place = []) (hrows : tx.buffer.OnePerRow tables)
    (hplace : g.place.IsKeyed tables) (ht : Fields.get? tables g.table = some t)
    (hcarries : t.Carries row) (hhas : row.hasKey g.key = true) :
    tx.seenRow? g.table (t.keyOf row) row = .ok (some row) := by
  have hkeyed : Place.IsKeyed tables ⟨g.table, t.keyOf row⟩ := ⟨t, ht, Table.isKey_keyOf hcarries⟩
  have hsame := hkeyed.sameRow_of_hasKey hplace rfl (t.sameKey_refl row) hhas
  have hpending := WriteBuffer.pending_eq hrows.requireActive ⟨g.table, t.keyOf row⟩
  rw [hrows.writesTo_congr hkeyed hplace hsame, hunwritten] at hpending
  unfold seenRow?
  rw [hpending]
  rfl

/-- A read by the key of the row finds it as it is shown, if the store finds it. -/
theorem run_findOne (h : Shows tables tx g row seen) (hg : g.Known tables places)
    (hfiled : Filed tables places tx) (hrows : tx.buffer.OnePerRow tables)
    (htarget : target db model conditions = .ok g) (hfixes : FixesKey g.keys g.conditions)
    (ht : Fields.get? tables g.table = some t) (hkeys : t.keys = g.keys)
    (hhas : row.hasKey g.key = true) {v : World Memory}
    (hfound : ((db.findOne { model, conditions }).run.run Memory.receive v).1 = .ok (some row)) :
    ((tx.findOne db { model, conditions }).run.run Memory.receive v).1 = .ok (some seen) := by
  obtain ⟨htable, hprimary, hnormalized, hfixed⟩ := target_eq_ok htarget
  have hown := h.ownRow?_eq hg hfiled hrows.requireActive hfixes hfixed
  unfold findOne
  rw [Run.ofExcept_bind_eq htable, Run.ofExcept_bind_eq hnormalized, Run.ofExcept_bind_eq hown]
  cases h with
  | updated hupdate hof h =>
    rw [show Fields.get? tx.updates g.id = _ from congrArg Prod.snd h]
    rfl
  | stored h =>
    have hgkey := (hg.keyed _ hg.mem).isKey (p := g.place) ht
    have hin : t.keys.IsIn row := Table.isIn_of_hasKey hgkey (isIn_of_keyOfConditions (hkeys ▸ hfixed)) hhas
    have hrowKey : Database.rowKey model t.keys row = .ok (t.keyOf row) := by
      rw [Database.rowKey, Table.keyOf_eq_ok_iff.mpr ⟨rfl, hin⟩]
      rfl
    have hseen := seenRow?_eq (congrArg Prod.fst h) hrows (hg.keyed _ hg.mem) ht
      (Table.carries_of_isIn hin) hhas
    rw [show Fields.get? tx.updates g.id = none from congrArg Prod.snd h]
    dsimp only [Option.map_none]
    rw [Run.run_bind, hfound]
    dsimp only
    rw [Run.ofExcept_bind_eq (hkeys ▸ hprimary), Run.ofExcept_bind_eq hrowKey, hseen]
    rfl

/-! ## Updating the row -/

/-- An update leads from the row as it is stored to the shown row with the patch over it. -/
theorem run_update (h : Shows tables tx g row seen) (hactive : tx.buffer.requireActive = .ok ())
    (htarget : target db model conditions = .ok g) (hfixes : FixesKey g.keys g.conditions)
    {v : World Memory}
    (hfound : ((db.findOne { model, conditions }).run.run Memory.receive v).1 = .ok (some row))
    (patch : Item) : ((tx.update db model conditions patch).run.run Memory.receive v).1 =
      tx.stageUpdate g row (db.patchedRow model g.keys seen patch) := by
  have hpending := WriteBuffer.pending_eq hactive g.place
  cases h with
  | stored h =>
    have hown : tx.ownUpdate? db model g patch = .ok none := by
      rw [show tx.buffer.writesTo g.place = [] from congrArg Prod.fst h] at hpending
      unfold ownUpdate?
      rw [show tx.buffer.pending g.table g.key = .ok none from hpending,
        show Fields.get? tx.updates g.id = none from congrArg Prod.snd h]
      rfl
    rw [run_update_of_unknown htarget hown, hfound]
    rfl
  | @updated w _ hupdate hof h =>
    have hown : tx.ownUpdate? db model g patch =
        (tx.stageUpdate g row (db.patchedRow model g.keys seen patch)).map some := by
      have hmatches : matchesAll g.conditions seen = true :=
        (hfixes.matchesAll_eq_hasKey (target_eq_ok htarget).2.2.2 _).trans hof.hasKey
      rw [show tx.buffer.writesTo g.place = [w] from congrArg Prod.fst h] at hpending
      unfold ownUpdate?
      rw [show tx.buffer.pending g.table g.key = .ok (some w) from hpending,
        show Fields.get? tx.updates g.id = _ from congrArg Prod.snd h]
      cases w with
      | update name key expression attributes =>
        refine congrArg (Except.map some) ?_
        exact if_pos hmatches
      | put _ _ | delete _ _ => cases hupdate
    rw [run_update_of_own htarget hown]

/-- A change of the row that is shown, but not of its key, is one of the stored row. -/
theorem isOf (h : Shows tables tx g row seen) (ht : Fields.get? tables g.table = some t)
    (hgkey : t.IsKey g.key) (hhas : row.hasKey g.key = true)
    (hnext : next.SameOn t.keys.attributes seen) :
    StagedUpdate.IsOf tables g.place ⟨g.table, row, next⟩ := by
  have hsame : next.SameOn t.keys.attributes row := by
    cases h with
    | stored h => exact hnext
    | updated hupdate hof h => exact fun k hk => (hnext k hk).trans (hof.sameOn t ht k hk)
  refine ⟨rfl, (hgkey.hasKey_congr hsame).trans hhas, fun u hu => ?_⟩
  obtain rfl := Option.some.inj (hu.symm.trans ht)
  exact hsame

end Shows

/-- A change of the row at a place is refused if there is no room for one more write. Otherwise it returns
the changed row and leaves a transaction with the given property. -/
def Stages (p : Place) (tx : Transaction) (merged : Item) (after : Transaction → Prop)
    (e : Except Fault (Option Item × Transaction)) : Prop :=
  if tx.buffer.writesTo p = [] ∧ maxTransactionWrites ≤ tx.buffer.writes.length then
    e = .error (.transactionLimit maxTransactionWrites)
  else
    ∃ tx', e = .ok (some merged, tx') ∧ after tx'

/-- A change of the row at a place is refused if it leads to the given row, and staged otherwise. -/
def UpdatesFrom (base : Item) (p : Place) (tx : Transaction) (merged : Item)
    (after : Transaction → Prop) (e : Except Fault (Option Item × Transaction)) : Prop :=
  if merged = base then e = .error (.invalidUpdate "Update produced no changes")
  else Stages p tx merged after e

section

variable {base base' merged : Item} {p : Place} {after : Transaction → Prop}
  {e : Except Fault (Option Item × Transaction)}

theorem not_stages_of_invalidUpdate {message : String} :
    ¬Stages p tx merged after (.error (.invalidUpdate message)) := by
  unfold Stages
  split
  · nofun
  · rintro ⟨_, h, -⟩
    cases h

theorem UpdatesFrom.imp {after' : Transaction → Prop} (h : UpdatesFrom base p tx merged after e)
    (hafter : ∀ tx', after tx' → after' tx') : UpdatesFrom base p tx merged after' e := by
  unfold UpdatesFrom Stages at h ⊢
  split
  · rwa [if_pos ‹_›] at h
  · rw [if_neg ‹_›] at h
    split
    · rwa [if_pos ‹_›] at h
    · rw [if_neg ‹_›] at h
      obtain ⟨tx', he, h⟩ := h
      exact ⟨tx', he, hafter tx' h⟩

/-- Which of two rows the merged row is compared with shows exactly if it is one of them. -/
theorem UpdatesFrom.iff (h : UpdatesFrom base p tx merged after e) :
    UpdatesFrom base' p tx merged after e ↔ (merged = base' ↔ merged = base) := by
  unfold UpdatesFrom at h ⊢
  by_cases hbase : merged = base <;> by_cases hbase' : merged = base'
  · rw [if_pos hbase] at h
    rw [if_pos hbase']
    exact ⟨fun _ => ⟨fun _ => hbase, fun _ => hbase'⟩, fun _ => h⟩
  · rw [if_pos hbase] at h
    rw [if_neg hbase', h]
    exact ⟨fun hstages => absurd hstages not_stages_of_invalidUpdate,
      fun hiff => absurd (hiff.mpr hbase) hbase'⟩
  · rw [if_neg hbase] at h
    rw [if_pos hbase']
    exact ⟨fun he => absurd (he ▸ h) not_stages_of_invalidUpdate,
      fun hiff => absurd (hiff.mp hbase') hbase⟩
  · rw [if_neg hbase] at h
    rw [if_neg hbase']
    exact ⟨fun _ => ⟨fun h => absurd h hbase', fun h => absurd h hbase⟩, fun _ => h⟩

end

theorem stageUpdate_self (tx : Transaction) (g : Target) (hrow : row.Patchable) :
    tx.stageUpdate g row row = .error (.invalidUpdate "Update produced no changes") := by
  unfold stageUpdate Database.patchBetween
  rw [Patch.between_self hrow]
  rfl

/-- A change of a row is buffered as the patch that it comes to, and staged with it. -/
theorem stageUpdate_eq (tx : Transaction) (g : Target) {change : Patch}
    (hchange : Patch.between row next = .ok change) : tx.stageUpdate g row next =
      (tx.buffer.stage (.update g.table g.key change.expression change.attributes) g.place.key).map
        fun b => (some next, ⟨b, Fields.insert tx.updates g.id ⟨g.table, row, next⟩⟩) := by
  unfold stageUpdate Database.patchBetween
  rw [hchange]
  show (tx.buffer.stage _ g.place.key >>= _) = _
  cases tx.buffer.stage (.update g.table g.key change.expression change.attributes) g.place.key <;> rfl

/-- A change of the row that is shown leads from the row as it is stored, and is shown behind it. -/
theorem Shows.updatesFrom (h : Shows tables tx g row seen) (hg : g.Known tables places)
    (hfiled : Filed tables places tx) (hrows : tx.buffer.OnePerRow tables)
    (ht : Fields.get? tables g.table = some t) (hgkey : t.IsKey g.key) (hrow : row.Patchable)
    (hnext : next.Patchable) (hof : StagedUpdate.IsOf tables g.place ⟨g.table, row, next⟩) :
    UpdatesFrom row g.place tx next
      (fun tx' => tx'.buffer.OnePerRow tables ∧ Filed tables places tx' ∧ Shows tables tx' g row next)
      (tx.stageUpdate g row next) := by
  unfold UpdatesFrom
  by_cases hsame : next = row
  · rw [if_pos hsame, hsame]
    exact stageUpdate_self tx g hrow
  rw [if_neg hsame]
  obtain ⟨change, hchange, -⟩ := Patch.exists_between hrow hnext (Ne.symm hsame)
  obtain ⟨hw, hplace⟩ := isKeyed_of_row (w := .update g.table g.key change.expression change.attributes)
    ht hgkey rfl rfl
  have hkeyed : g.place.IsKeyed tables := hplace ▸ hw.place
  have hresult := stageUpdate_eq tx g hchange
  unfold Stages
  rcases WriteBuffer.stage_cases (p := g.place) (w := .update g.table g.key _ _) hrows.requireActive rfl
      hkeyed.sameRow_refl.2.1 with ⟨hnone, hfull, hstage⟩ | ⟨hroom, b, hstage, hwrites⟩
  · rw [if_pos ⟨hnone, hfull⟩, hresult, hstage]
    rfl
  · rw [hstage] at hresult
    rw [if_neg fun hfull => absurd hfull.2 (Nat.not_le.mpr (hroom hfull.1))]
    refine ⟨_, hresult, hrows.stage hw hkeyed (hplace ▸ hkeyed.sameRow_refl) hstage,
      hfiled.stageUpdate hg.mem ht hof.hasKey (hof.sameOn t ht) hresult, ?_⟩
    have hlast : (tx.buffer.writesTo g.place).dropLast = [] := by
      cases h with
      | stored h => rw [show tx.buffer.writesTo g.place = [] from congrArg Prod.fst h]; rfl
      | updated _ _ h => rw [show tx.buffer.writesTo g.place = [_] from congrArg Prod.fst h]; rfl
    rw [hlast] at hwrites
    exact .updated (w := .update g.table g.key _ _) rfl hof
      (Prod.ext hwrites (Fields.get?_insert_self _ _ _))

/-! ## Updates after calls -/

/-- The transaction leaves the row at the place of the target, and finds it by the conditions as long as
the store is as given and nothing fails. -/
def Sees (db : Database) (m : Memory) (model : String) (conditions : List Condition) (g : Target)
    (row : Item) (tx : Transaction) : Prop :=
  tx.rowAt m.tables g.place = some row ∧
    ∀ v : World Memory, Memory.Holds m.tables m.pageSize True v.store →
      ((tx.findOne db { model, conditions }).run.run Memory.receive v).1 = .ok (some row)

/-- An update of a stored row that is neither put nor deleted is refused exactly if it makes the row what it
is in the store, whatever the transaction sees of it. Every other update is staged if there is room, and the
transaction then sees the row with the patch over what it saw before. So it is as if the row were compared
with what the transaction sees of it exactly if it comes to both what is seen and what is stored, or to
neither. -/
theorem ofCalls_update_iff {s : Schema} (hs : s.TablesApart) {w : World Memory} (hstore : w.store.IsOf s)
    (hunique : w.store.Unique) (hpageSize : w.store.pageSize ≠ some 0) (hdb : db.resolver = s.resolver)
    (calls : List Call) (hmodel : model ≠ "") (htarget : target db model conditions = .ok g)
    (hfixes : FixesKey g.keys g.conditions)
    (hids : Place.Identified (g.place :: calls.filterMap (Call.place? db)))
    (hstored : g.place.stored? w.store.tables = some row) (hrow : row.Patchable)
    (hwrites : ∀ u ∈ (ofCalls db Memory.receive w calls).buffer.writesTo g.place, u.isUpdate = true) :
    let tx := ofCalls db Memory.receive w calls
    ∃ seen, tx.Sees db w.store model conditions g seen ∧ ∀ (patch : Item) (v : World Memory),
      Memory.Holds w.store.tables w.store.pageSize True v.store →
      let merged := db.patchedRow model g.keys seen patch
      let ended := ((tx.update db model conditions patch).run.run Memory.receive v).1
      merged.Patchable →
        UpdatesFrom row g.place tx merged (Sees db w.store model conditions g merged) ended ∧
        (UpdatesFrom seen g.place tx merged (Sees db w.store model conditions g merged) ended ↔
          (merged = seen ↔ merged = row)) := by
  intro tx
  have hkeys := Database.keysIn hs hstore hdb
  obtain ⟨htable, hprimary, hnormalized, hfixed⟩ := target_eq_ok htarget
  obtain ⟨t, ht, htkeys, hgkey⟩ := Target.isKeyed hkeys htarget
  have hg : g.Known w.store.tables (g.place :: calls.filterMap (Call.place? db)) :=
    ⟨Target.keyed_places hkeys htarget calls, hids, List.mem_cons_self⟩
  obtain ⟨hrows, hfiled, seen, hshows⟩ := exists_shows_ofCalls hkeys hg (fun call hcall p hp =>
    List.mem_cons_of_mem _ (List.mem_filterMap.mpr ⟨call, hcall, hp⟩)) (hunique g.table) hstored hwrites
  have hfind : t.find? g.key = some row := (Place.stored?_eq (p := g.place) ht).symm.trans hstored
  have hhas : row.hasKey g.key = true :=
    List.find?_some (p := fun item : Item => item.hasKey g.key) hfind
  have hfound : ∀ v : World Memory, Memory.Holds w.store.tables w.store.pageSize True v.store →
      ((db.findOne { model, conditions }).run.run Memory.receive v).1 = .ok (some row) := by
    intro v hv
    have hend := (Database.ensures_findOne_unique (q := { model, conditions }) htable
      (htkeys ▸ hprimary) ht (hunique g.table t ht) hpageSize ⟨hmodel, rfl, rfl, rfl, rfl⟩ hnormalized
      (htkeys ▸ hfixes) (htkeys ▸ hfixed) v hv).2
    split at hend
    · rename_i found hrun
      rw [hrun, hend, hfind]
    · exact absurd trivial hend
  have hsees : ∀ {tx : Transaction} {item : Item}, tx.buffer.OnePerRow w.store.tables ∧
      Filed w.store.tables (g.place :: calls.filterMap (Call.place? db)) tx ∧
      Shows w.store.tables tx g row item → tx.Sees db w.store model conditions g item :=
    fun ⟨hrows, hfiled, hshows⟩ => ⟨hshows.rowAt_eq hstored, fun v hv =>
      hshows.run_findOne hg hfiled hrows htarget hfixes ht htkeys hhas (hfound v hv)⟩
  refine ⟨seen, hsees ⟨hrows, hfiled, hshows⟩, ?_⟩
  intro patch v hv merged ended hmerged
  have hended : ended = tx.stageUpdate g row merged :=
    hshows.run_update hrows.requireActive htarget hfixes (hfound v hv) patch
  have hof : StagedUpdate.IsOf w.store.tables g.place ⟨g.table, row, merged⟩ :=
    hshows.isOf ht hgkey hhas (Database.sameOn_patchedRow htkeys seen patch)
  have hends := (hshows.updatesFrom hg hfiled hrows ht hgkey hrow hmerged hof).imp fun _ => hsees
  rw [← hended] at hends
  exact ⟨hends, hends.iff⟩

/-- User 1 is updated, and updated again to what is neither stored nor seen. -/
theorem ofCalls_update_iff_users :
    let user : ModelDef := { name := "user", table := "users", primaryKey := { partition := "id" } }
    let row (n : Int) : Item := [("id", .num (.int 1)), ("n", .num (.int n))]
    let store := (Memory.ofSchema (.ofModels [user]) none).seed "users" [.map (row 1)]
    let db : Database := { resolver := (Schema.ofModels [user]).resolver }
    let byId : List Condition := [⟨"id", none, .num (.int 1), none⟩]
    let update (n : Int) : Call := .update "user" byId [("n", .num (.int n))]
    let tx := ofCalls db Memory.receive { store } [update 2]
    ∃ g tx', target db "user" byId = .ok g ∧ tx.Sees db store "user" byId g (row 2) ∧
      ((tx.update db "user" byId [("n", .num (.int 3))]).run.run Memory.receive { store }).1 =
        .ok (some (row 3), tx') ∧ tx'.Sees db store "user" byId g (row 3) := by
  intro user row store db byId update tx
  have hs : (Schema.ofModels [user]).TablesApart := by unfold Schema.TablesApart; decide +kernel
  have hstore : store.IsOf (.ofModels [user]) := (Memory.isOf_ofSchema _ _).seed _ _
  have hunique : store.Unique := (Memory.unique_ofSchema _ _).seed _ _
  have hkeys : db.KeysIn store.tables := Database.keysIn hs hstore rfl
  have htarget : target db "user" byId = .ok
      { table := "users", keys := { partition := "id" }
        conditions := [⟨"id", .eq, .num (.int 1), .and, false⟩], key := [("id", .num (.int 1))] } :=
    rfl
  have hfixes : FixesKey { partition := "id" } [⟨"id", .eq, .num (.int 1), .and, false⟩] :=
    ⟨by decide +kernel, by decide +kernel, fun _ => Iff.rfl⟩
  have hkeyed := Target.keyed_places hkeys htarget [update 2]
  have hids := (Place.toldApart_of_slashFree hkeyed (by decide +kernel)).identified hkeyed
    (by decide +kernel)
  have hmerged : db.patchedRow "user" { partition := "id" } (row 2) [("n", .num (.int 3))] = row 3 := by
    decide +kernel
  have hstored : Place.stored? store.tables ⟨"users", [("id", .num (.int 1))]⟩ = some (row 1) := by
    decide +kernel
  obtain ⟨seen, hsees, hupdates⟩ := ofCalls_update_iff (w := { store }) hs hstore hunique nofun rfl
    [update 2] (by decide) htarget hfixes hids hstored
    (Item.patchable_of_isKeyPart (by decide +kernel) (by decide +kernel)) (by decide +kernel)
  obtain rfl : row 2 = seen := Option.some.inj (Eq.trans (by decide +kernel) hsees.1)
  have hstaged := (hupdates [("n", .num (.int 3))] { store } ⟨rfl, rfl, fun _ => rfl, fun _ => rfl⟩
    (hmerged ▸ Item.patchable_of_isKeyPart (by decide +kernel) (by decide +kernel))).1
  rw [hmerged] at hstaged
  unfold UpdatesFrom Stages at hstaged
  rw [if_neg (by decide +kernel), if_neg (by decide +kernel)] at hstaged
  obtain ⟨tx', hended, hsees'⟩ := hstaged
  exact ⟨_, tx', htarget, hsees, hended, hsees'⟩

/-- User 1 has n 1 and is updated to n 2 by a transaction. Taking the update back is refused as one that
changes nothing, and the transaction commits n 2. Updating to n 2 once more is not refused. -/
theorem not_ofCalls_update :
    let user : ModelDef := { name := "user", table := "users", primaryKey := { partition := "id" } }
    let row (n : Int) : Item := [("id", .num (.int 1)), ("n", .num (.int n))]
    let store := (Memory.ofSchema (.ofModels [user]) none).seed "users" [.map (row 1)]
    let db : Database := ⟨(Schema.ofModels [user]).resolver, {}, 1⟩
    let byId : List Condition := [⟨"id", none, .num (.int 1), none⟩]
    let tx := ofCalls db Memory.receive { store } [.update "user" byId [("n", .num (.int 2))]]
    let updated (n : Int) :=
      ((tx.update db "user" byId [("n", .num (.int n))]).run.run Memory.receive { store }).1
    tx.rowAt store.tables ⟨"users", [("id", .num (.int 1))]⟩ = some (row 2) ∧
      updated 1 = .error (.invalidUpdate "Update produced no changes") ∧
      ((tx.commit db "token").run.run Memory.receive { store }).2.store.items "users" = [row 2] ∧
      (updated 2).map Prod.fst = .ok (some (row 2)) := by
  decide +kernel

end Transaction

end KeyedQuery
