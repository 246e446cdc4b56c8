import KeyedQuery.Proofs.Transaction.Steps

/-!
# Reading through a transaction

A transaction looks for a row among those that it has written before it asks the store. What it finds
there is a row that it leaves at some place, and if it finds none, no such row satisfies the
conditions (`Transaction.Tracks.findsOwn`). A row of the store is passed on unless an update or a delete is
buffered for it (`Transaction.seen`), so a read ends in one of two ways
(`Transaction.Tracks.run_findOne`).
-/

namespace KeyedQuery

theorem Run.ofExcept_bind_eq {α β : Type} {e : Except Fault α} {a : α} (he : e = .ok a)
    (f : α → Run β) : Run.ofExcept e >>= f = f a :=
  he ▸ rfl

namespace Transaction

variable {tables : Fields Table} {tx : Transaction} {t : Table} {name : String} {p : Place}
  {conditions : List NormalizedCondition} {db : Database} {q : FindQuery} {w : World Memory}
  {pageSize : Option Nat} {calm : Prop} {result : Option Item}

/-- What the transaction passes on of a row that is stored at a place. -/
def seen (tx : Transaction) (p : Place) (row : Item) : Option Item :=
  match tx.buffer.write? p with
  | some (.delete _ _) | some (.update _ _ _ _) => none
  | some (.put _ _) | none => some row

/-- A row at a place of the table that the transaction has written. -/
def LeavesOwn (tables : Fields Table) (tx : Transaction) (name : String) (row : Item) : Prop :=
  ∃ p : Place, p.IsIn tables ∧ p.table = name ∧ tx.buffer.write? p ≠ none ∧
    tx.rowAt tables p = some row

/-- A row at a place of the table as the transaction leaves it. -/
def Leaves (tables : Fields Table) (tx : Transaction) (name : String) (row : Item) : Prop :=
  ∃ p : Place, p.IsIn tables ∧ p.table = name ∧ tx.rowAt tables p = some row

namespace Tracks

/-- A staged row is what the transaction leaves at its place. -/
theorem rowAt_of_mem_updates (h : Tracks tables tx) {id : String} {u : StagedUpdate}
    (hu : (id, u) ∈ tx.updates) : LeavesOwn tables tx u.table u.next := by
  obtain ⟨p, hp, rfl, htable⟩ := h.exists_place _ hu
  have hget : Fields.get? tx.updates p.id = some u := h.ordered.get?_of_mem hu
  obtain ⟨_, _, _, _, hwrite⟩ := (h.agrees p hp).exists_update hget
  exact ⟨p, hp, htable.symm, by simp [hwrite],
    by rw [rowAt_of_write? hwrite, rowAfter, hget, Option.map_some]⟩

/-- A row that is put is what the transaction leaves at its place. -/
theorem rowAt_of_mem_writes (h : Tracks tables tx) {item : Item}
    (hw : Write.put name item ∈ tx.buffer.writes) : LeavesOwn tables tx name item := by
  have hp := (h.sound.fits _ hw).isIn
  have hwrite := (h.sound.write?_eq_some_iff hp).mpr ⟨hw, rfl⟩
  exact ⟨_, hp, rfl, by simp [hwrite], rowAt_of_write? hwrite⟩

/-- The transaction looks among its puts first, the latest one before the others, and then among its
updates. -/
theorem ownRow?_eq (h : Tracks tables tx) (name : String) (conditions : List NormalizedCondition) :
    tx.ownRow? name conditions =
      .ok ((tx.buffer.writes.reverse.findSome? (WriteBuffer.putRow? name conditions)).or
        (tx.updatedRow? name conditions)) := by
  have hsearch : tx.buffer.search name conditions =
      .ok (tx.buffer.writes.reverse.findSome? (WriteBuffer.putRow? name conditions)) := by
    unfold WriteBuffer.search
    rw [h.sound.requireActive]
    rfl
  unfold ownRow?
  rw [hsearch]
  cases tx.buffer.writes.reverse.findSome? (WriteBuffer.putRow? name conditions) <;> rfl

theorem leavesOwn_of_putRow? (h : Tracks tables tx) {row : Item}
    (hput : tx.buffer.writes.reverse.findSome? (WriteBuffer.putRow? name conditions) = some row) :
    LeavesOwn tables tx name row ∧ matchesAll conditions row = true := by
  obtain ⟨w, hw, hrow⟩ := List.exists_of_findSome?_eq_some hput
  cases w with
  | put n item =>
    rw [WriteBuffer.putRow?] at hrow
    split at hrow
    · rename_i hmatches
      obtain ⟨rfl, hmatches⟩ := hmatches
      obtain rfl := Option.some.inj hrow
      exact ⟨h.rowAt_of_mem_writes (List.mem_reverse.mp hw), hmatches⟩
    · cases hrow
  | update _ _ _ _ => cases hrow
  | delete _ _ => cases hrow

theorem leavesOwn_of_updatedRow? (h : Tracks tables tx) {row : Item}
    (hupdated : tx.updatedRow? name conditions = some row) :
    LeavesOwn tables tx name row ∧ matchesAll conditions row = true := by
  obtain ⟨⟨id, u⟩, hu, hrow⟩ := List.exists_of_findSome?_eq_some hupdated
  dsimp only at hrow
  split at hrow
  · rename_i hmatches
    obtain ⟨rfl, hmatches⟩ := hmatches
    obtain rfl := Option.some.inj hrow
    exact ⟨h.rowAt_of_mem_updates hu, hmatches⟩
  · cases hrow

/-- If there is neither such a put nor such an update, no own row satisfies the conditions. -/
theorem matchesAll_of_leavesOwn (h : Tracks tables tx)
    (hput : tx.buffer.writes.reverse.findSome? (WriteBuffer.putRow? name conditions) = none)
    (hupdated : tx.updatedRow? name conditions = none) {row : Item}
    (hleaves : LeavesOwn tables tx name row) : matchesAll conditions row = false := by
  obtain ⟨p, hp, rfl, hwritten, hrow⟩ := hleaves
  rw [List.findSome?_eq_none_iff] at hput
  rw [updatedRow?, List.findSome?_eq_none_iff] at hupdated
  obtain ⟨w, hw⟩ := Option.ne_none_iff_exists'.mp hwritten
  have hagrees := h.agrees p hp
  rw [hw] at hagrees
  rw [rowAt_of_write? hw] at hrow
  obtain ⟨hmem, hplace⟩ := (h.sound.write?_eq_some_iff hp).mp hw
  cases w with
  | put n item =>
    obtain rfl := Option.some.inj hrow
    have hnone := hput _ (List.mem_reverse.mpr hmem)
    subst hplace
    simpa [WriteBuffer.putRow?, Write.place, Write.table] using hnone
  | update _ _ _ _ =>
    obtain ⟨u, hu, hstands⟩ := hagrees
    rw [rowAfter, hu] at hrow
    obtain rfl := Option.some.inj hrow
    have hnone := hupdated (p.id, u) (Fields.mem_of_get?_eq_some hu)
    simpa [hstands.table_eq] using hnone
  | delete _ _ => cases hrow

/-- What the transaction finds of its own is a row that it leaves at a place that it has written, and
if it finds none, no such row satisfies the conditions. -/
theorem findsOwn (h : Tracks tables tx) (name : String) (conditions : List NormalizedCondition) :
    ∃ own, tx.ownRow? name conditions = .ok own ∧
      match own with
      | some row => LeavesOwn tables tx name row ∧ matchesAll conditions row = true
      | none => ∀ row, LeavesOwn tables tx name row → matchesAll conditions row = false := by
  refine ⟨_, h.ownRow?_eq name conditions, ?_⟩
  cases hput : tx.buffer.writes.reverse.findSome? (WriteBuffer.putRow? name conditions) with
  | some row => exact h.leavesOwn_of_putRow? hput
  | none =>
    rw [Option.none_or]
    cases hupdated : tx.updatedRow? name conditions with
    | some row => exact h.leavesOwn_of_updatedRow? hupdated
    | none => exact fun row hleaves => h.matchesAll_of_leavesOwn hput hupdated hleaves

/-- A read ends with a row of the transaction's own, or as the store's answer is passed on. -/
theorem run_findOne (h : Tracks tables tx) (htables : TablesKeyed tables)
    (hlies : db.LiesOn q.model tables t) (hname : db.resolver.table q.model = .ok name)
    (ht : Fields.get? tables name = some t)
    (hconditions : normalizeAll db.resolver q.model q.conditions = .ok conditions)
    (hmem : ∀ row, ((db.findOne q).run.run Memory.receive w).1 = .ok (some row) → row ∈ t.items) :
    (∃ row, LeavesOwn tables tx name row ∧ matchesAll conditions row = true ∧
        ((tx.findOne db q).run.run Memory.receive w).1 = .ok (some row)) ∨
      (∀ row, LeavesOwn tables tx name row → matchesAll conditions row = false) ∧
        ((tx.findOne db q).run.run Memory.receive w).1 =
          ((db.findOne q).run.run Memory.receive w).1.map fun found =>
            found.bind fun row => tx.seen ⟨name, t.keyOf row⟩ row := by
  obtain ⟨own, hown, hfinds⟩ := h.findsOwn name conditions
  unfold findOne
  rw [Run.ofExcept_bind_eq hname, Run.ofExcept_bind_eq hconditions, Run.ofExcept_bind_eq hown]
  cases own with
  | some row => exact .inl ⟨row, hfinds.1, hfinds.2, rfl⟩
  | none =>
    refine .inr ⟨hfinds, ?_⟩
    dsimp only
    rw [Run.run_bind]
    cases hfound : ((db.findOne q).run.run Memory.receive w).1 with
    | error fault => rfl
    | ok found =>
      cases found with
      | none => rfl
      | some row =>
        have hparts := htables.hasKeyParts name t ht row (hmem row hfound)
        have hseen : tx.seenRow? name (t.keyOf row) row =
            .ok (tx.seen ⟨name, t.keyOf row⟩ row) := by
          unfold seenRow? seen
          rw [h.sound.pending ⟨name, t.keyOf row⟩]
          cases tx.buffer.write? ⟨name, t.keyOf row⟩ with
          | none => rfl
          | some w => cases w <;> rfl
        dsimp only
        rw [Run.ofExcept_bind_eq hlies.primaryKey, Run.ofExcept_bind_eq (hparts.rowKey q.model),
          hseen]
        rfl

/-- Conditions that fix a key hold of the row that the transaction leaves at its place only. -/
theorem matchesAll_iff_of_fixes (h : Tracks tables tx) (htables : TablesKeyed tables) {g : Target}
    (ht : Fields.get? tables g.table = some t) (hp : g.place.IsIn tables)
    (hfixes : FixesKey g.keys g.conditions)
    (hfixed : keyOfConditions q.model g.keys g.conditions = .ok g.key) {p : Place} {row : Item}
    (hpIn : p.IsIn tables) (hpt : p.table = g.table) (hrow : tx.rowAt tables p = some row) :
    matchesAll g.conditions row = true ↔ p = g.place := by
  have hkey : t.IsKey g.key ∧ t.HasKeyParts g.key := hp.isKey ht
  rw [hfixes.matchesAll_eq_hasKey hfixed,
    (h.holds_rowAt htables hpIn hrow).hasKey_iff (hpt ▸ ht) hkey.1 hkey.2]
  cases p
  simp_all [Target.place]

/-- A stored row is passed on as what the transaction leaves at its place, unless this is an own
row. -/
theorem bind_seen_eq_rowAt {p : Place}
    (hown : tx.buffer.write? p ≠ none → tx.rowAt tables p = none) :
    (p.stored? tables).bind (tx.seen p) = tx.rowAt tables p := by
  cases hwrite : tx.buffer.write? p with
  | none =>
    rw [rowAt_of_unwritten hwrite]
    cases p.stored? tables with
    | none => rfl
    | some row => rw [Option.bind_some, seen, hwrite]
  | some v =>
    have habsent := hown (by simp [hwrite])
    have hunseen : ∀ row, tx.seen p row = none := by
      intro row
      rw [rowAt_of_write? hwrite] at habsent
      rw [seen, hwrite]
      cases v with
      | put _ _ => cases habsent
      | update _ _ _ _ => rfl
      | delete _ _ => rfl
    rw [habsent]
    cases p.stored? tables with
    | none => rfl
    | some row => exact hunseen row

/-- A read by key in a calm store finds the row that the transaction leaves at the place of the
key. -/
theorem run_findOne_key (h : Tracks tables tx) (htables : TablesKeyed tables)
    (hlies : db.LiesIn tables) (hpageSize : pageSize ≠ some 0)
    (hw : Memory.Holds tables pageSize True w.store) (hplain : q.IsPlain) {g : Target}
    (hg : target db q.model q.conditions = .ok g) (hfixes : FixesKey g.keys g.conditions)
    (hparts : ∀ field ∈ g.key, field.2.IsKeyPart) :
    ((tx.findOne db q).run.run Memory.receive w).1 = .ok (tx.rowAt tables g.place) := by
  obtain ⟨t, ht, hlies, hkeys, hp⟩ := g.isIn hlies hg hparts
  obtain ⟨htable, -, hnormalized, hfixed⟩ := target_eq_ok hg
  have hmatches : ∀ {p : Place} {row}, p.IsIn tables → p.table = g.table →
      tx.rowAt tables p = some row → (matchesAll g.conditions row = true ↔ p = g.place) :=
    fun hpIn hpt hrow => h.matchesAll_iff_of_fixes htables ht hp hfixes hfixed hpIn hpt hrow
  have hfound : ((db.findOne q).run.run Memory.receive w).1 = .ok (g.place.stored? tables) := by
    have hend := (Database.ensures_findOne_key hlies hpageSize hplain hnormalized
      (hkeys ▸ hfixes) (hkeys ▸ hfixed) w hw).2
    rw [Place.stored?_eq (p := g.place) ht]
    split at hend
    · rename_i found hrun
      rw [hrun, hend]
      rfl
    · exact absurd trivial hend
  have hmem : ∀ row, ((db.findOne q).run.run Memory.receive w).1 = .ok (some row) →
      row ∈ t.items := fun row hrow =>
    ((htables.stored?_eq_some_iff (p := g.place) ht).mp
      ⟨hp, Except.ok.inj (hfound.symm.trans hrow)⟩).1
  rcases h.run_findOne htables hlies htable ht hnormalized hmem with
    ⟨row, ⟨p, hpIn, hpt, -, hrow⟩, hall, hrun⟩ | ⟨hnone, hrun⟩
  · rw [hrun, ← (hmatches hpIn hpt hrow).mp hall, hrow]
  · have hplace : ∀ row, g.place.stored? tables = some row →
        tx.seen ⟨g.table, t.keyOf row⟩ row = tx.seen g.place row := by
      intro row hrow
      obtain ⟨-, u, hu, -, hkey⟩ := (htables.stored?_eq_some_iff (p := g.place) ht).mp ⟨hp, hrow⟩
      obtain rfl := Option.some.inj (hu.symm.trans ht)
      exact congrArg (fun p => tx.seen p row) (congrArg (Place.mk g.table) hkey)
    have hown : tx.buffer.write? g.place ≠ none → tx.rowAt tables g.place = none := by
      refine fun hwritten => Option.eq_none_iff_forall_ne_some.mpr fun row hrow => ?_
      have hno := hnone row ⟨g.place, hp, rfl, hwritten, hrow⟩
      rw [(hmatches hp rfl hrow).mpr rfl] at hno
      cases hno
    rw [hrun, hfound]
    exact congrArg Except.ok ((Option.bind_congr hplace).trans (bind_seen_eq_rowAt hown))

end Tracks

end Transaction

end KeyedQuery
