import KeyedQuery.Proofs.Transaction.Sessions

/-!
# Answers to other conditions

A read through a transaction should answer with a row that the transaction leaves and that satisfies the
conditions, or with none if there is no such row (`Transaction.Answers`). For conditions on other
attributes than the key this is so unless the first row that the store finds is one that the
transaction has written (`Session.answers_iff`): a row that is put anew is still answered with as it is
stored (`Session.not_leaves_stale`), and a row that is updated or deleted hides others that satisfy the
conditions.
-/

namespace KeyedQuery

open Transaction

namespace Transaction

variable {tables : Fields Table} {tx : Transaction} {t : Table} {name : String} {p : Place}
  {conditions : List NormalizedCondition} {row : Item}

/-- The answer is a row that the transaction leaves in the table and that satisfies the conditions, or
there is none and no such row. -/
def Answers (tables : Fields Table) (tx : Transaction) (name : String)
    (conditions : List NormalizedCondition) : Option Item → Prop
  | some row => Leaves tables tx name row ∧ matchesAll conditions row = true
  | none => ∀ row, Leaves tables tx name row → matchesAll conditions row = false

/-- The right answer can be told from what the store has found: nothing, or a row that the transaction
has not written, or one that it updates or deletes while no row that it has not written satisfies the
conditions. -/
def Tells (tables : Fields Table) (tx : Transaction) (name : String)
    (conditions : List NormalizedCondition) : Option Item → Prop
  | some row => ∃ p : Place, p.table = name ∧ p.Holds tables row ∧
    match tx.buffer.write? p with
    | some (.put _ _) => False
    | some (.update _ _ _ _) | some (.delete _ _) => ∀ q : Place, q.IsIn tables → q.table = name →
      tx.buffer.write? q = none → ∀ other, q.stored? tables = some other →
        matchesAll conditions other = false
    | none => True
  | none => True

theorem LeavesOwn.leaves (h : LeavesOwn tables tx name row) : Leaves tables tx name row := by
  obtain ⟨p, hp, hname, -, hrow⟩ := h
  exact ⟨p, hp, hname, hrow⟩

/-- A row that is left in a table was put there or updated by the transaction, or it is stored and has not
been written. -/
theorem Leaves.cases (h : Leaves tables tx name row) : LeavesOwn tables tx name row ∨
    ∃ p : Place, p.IsIn tables ∧ p.table = name ∧ tx.buffer.write? p = none ∧
      p.stored? tables = some row := by
  obtain ⟨p, hp, hname, hrow⟩ := h
  by_cases hwrite : tx.buffer.write? p = none
  · exact .inr ⟨p, hp, hname, hwrite, (rowAt_of_unwritten hwrite).symm.trans hrow⟩
  · exact .inl ⟨p, hp, hname, hwrite, hrow⟩

/-- There is nothing to answer with exactly if no row that has not been written satisfies the
conditions, as long as no own row does. -/
theorem answers_none_iff
    (hnone : ∀ row, LeavesOwn tables tx name row → matchesAll conditions row = false) :
    Answers tables tx name conditions none ↔ ∀ q : Place, q.IsIn tables → q.table = name →
      tx.buffer.write? q = none → ∀ other, q.stored? tables = some other →
        matchesAll conditions other = false := by
  constructor
  · intro hanswers q hq hname hwrite other hstored
    exact hanswers other ⟨q, hq, hname, (rowAt_of_unwritten hwrite).trans hstored⟩
  · intro hothers other hother
    rcases hother.cases with hown | ⟨q, hq, hname, hwrite, hstored⟩
    · exact hnone other hown
    · exact hothers q hq hname hwrite other hstored

theorem tells_some_iff (hholds : p.Holds tables row) :
    Tells tables tx p.table conditions (some row) ↔
      match tx.buffer.write? p with
      | some (.put _ _) => False
      | some (.update _ _ _ _) | some (.delete _ _) => ∀ q : Place, q.IsIn tables →
        q.table = p.table → tx.buffer.write? q = none → ∀ other, q.stored? tables = some other →
          matchesAll conditions other = false
      | none => True := by
  constructor
  · rintro ⟨q, hname, hq, htells⟩
    rwa [hq.eq_of_table_eq hholds hname] at htells
  · exact fun htells => ⟨p, rfl, hholds, htells⟩

/-- What the transaction passes on of a row that the store has found is the right answer exactly if that
can be told, as long as no row of its own satisfies the conditions. -/
theorem Tracks.answers_seen_iff (h : Tracks tables tx) (htables : TablesKeyed tables)
    (ht : Fields.get? tables name = some t)
    (hnone : ∀ row, LeavesOwn tables tx name row → matchesAll conditions row = false)
    {found : Option Item} (hfinds : Finds t.items (matchesAll conditions) found) :
    Answers tables tx name conditions
        (found.bind fun row => tx.seen ⟨name, t.keyOf row⟩ row) ↔
      Tells tables tx name conditions found := by
  cases found with
  | none =>
    refine iff_of_true (fun row hrow => ?_) trivial
    rcases hrow.cases with hown | ⟨p, hp, rfl, -, hstored⟩
    · exact hnone row hown
    · exact hfinds row ((htables.stored?_eq_some_iff ht).mp ⟨hp, hstored⟩).1
  | some row =>
    obtain ⟨hmem, hmatches⟩ := hfinds
    have hholds : Place.Holds tables ⟨name, t.keyOf row⟩ row :=
      ⟨t, ht, htables.hasKeyParts name t ht row hmem, rfl⟩
    rw [tells_some_iff hholds, Option.bind_some, seen]
    cases hwrite : tx.buffer.write? ⟨name, t.keyOf row⟩ with
    | none =>
      have hstored := ((htables.stored?_eq_some_iff (p := ⟨name, t.keyOf row⟩) ht).mpr
        ⟨hmem, hholds⟩).2
      exact iff_of_true ⟨⟨_, hholds.isIn, rfl, (rowAt_of_unwritten hwrite).trans hstored⟩, hmatches⟩
        trivial
    | some w =>
      cases w with
      | put n item =>
        refine iff_of_false (fun hanswers => ?_) id
        obtain ⟨⟨p, hp, hname, hrow⟩, -⟩ := hanswers
        obtain rfl := (h.holds_rowAt htables hp hrow).eq_of_table_eq hholds hname
        have hno := hnone row ⟨_, hp, rfl, by simp [hwrite], hrow⟩
        rw [hmatches] at hno
        cases hno
      | update _ _ _ _ => exact answers_none_iff hnone
      | delete _ _ => exact answers_none_iff hnone

end Transaction

/-- After calls of a transaction a read for whole rows answers right exactly if a row that the
transaction has put or updated satisfies the conditions, or the right answer can be told from what the
store finds. -/
theorem Session.answers_iff {s : Schema} (hs : s.TablesApart) {w : World Memory}
    (hstore : w.store.IsOf s) (hkeyed : TablesKeyed w.store.tables) {db : Database}
    (hdb : db.resolver = s.resolver) {calls : List Call} (hcalls : ∀ call ∈ calls, call.Regular db)
    {q : FindQuery} (hplain : q.IsPlain) {name : String}
    (hname : db.resolver.table q.model = .ok name) {conditions : List NormalizedCondition}
    (hconditions : normalizeAll db.resolver q.model q.conditions = .ok conditions)
    (hdefinite : ∀ c ∈ conditions, c.IsDefinite) {result : Option Item}
    (hrun : (((Session.run db { world := w } calls).tx.findOne db q).run.run Memory.receive
      (Session.run db { world := w } calls).world).1 = .ok result) :
    Answers w.store.tables (Session.run db { world := w } calls).tx name conditions result ↔
      (∃ row, LeavesOwn w.store.tables (Session.run db { world := w } calls).tx name row ∧
        matchesAll conditions row = true) ∨
      ∃ found, ((db.findOne q).run.run Memory.receive
          (Session.run db { world := w } calls).world).1 = .ok found ∧
        Tells w.store.tables (Session.run db { world := w } calls).tx name conditions found := by
  have hliesIn := Database.liesIn hs hstore hkeyed.wellKeyed hdb
  obtain ⟨t, ht, hlies⟩ := hliesIn q.model name hname
  have hfollows : (Session.run db { world := w } calls).Follows w.store.tables w.store.pageSize
      False :=
    follows_run hkeyed hliesIn hstore.pageSize_ne
      ⟨⟨rfl, rfl, False.elim, False.elim⟩, tracks_empty _⟩ hcalls
  generalize Session.run db { world := w } calls = session at hrun hfollows ⊢
  have hfinds : ∀ found, ((db.findOne q).run.run Memory.receive session.world).1 = .ok found →
      Finds t.items (matchesAll conditions) found := by
    intro found hfound
    have hend := (Database.ensures_findOne hlies hstore.pageSize_ne hplain hconditions hdefinite
      session.world hfollows.holds).2
    rwa [hfound] at hend
  rcases hfollows.tracks.run_findOne hkeyed hlies hname ht hconditions
    (fun row hrow => (hfinds _ hrow).1) with ⟨row, hown, hmatches, hanswer⟩ | ⟨hnone, hanswer⟩
  · obtain rfl := Except.ok.inj (hanswer.symm.trans hrun)
    exact iff_of_true ⟨hown.leaves, hmatches⟩ (.inl ⟨row, hown, hmatches⟩)
  · rw [hanswer] at hrun
    obtain ⟨found, hfound, rfl⟩ := exists_of_map_eq_ok hrun
    rw [hfollows.tracks.answers_seen_iff hkeyed ht hnone (hfinds found hfound)]
    constructor
    · exact fun htells => .inr ⟨found, hfound, htells⟩
    · rintro (⟨row, hown, hmatches⟩ | ⟨found', hfound', htells⟩)
      · rw [hnone row hown] at hmatches
        cases hmatches
      · obtain rfl := Except.ok.inj (hfound.symm.trans hfound')
        exact htells

/-- A row is created next to a stored one, and the stored one is answered with. -/
theorem Session.answers_iff_unwritten :
    let user : ModelDef := { name := "user", table := "users", primaryKey := { partition := "id" } }
    let ada : Item := [("id", .num (.int 1)), ("name", .str "ada")]
    let store := (Memory.ofSchema (.ofModels [user]) none).seed "users" [.map ada]
    let db : Database := { resolver := (Schema.ofModels [user]).resolver }
    let calls : List Call := [.create "user" [("id", .num (.int 2)), ("name", .str "bob")]]
    let session := Session.run db { world := { store } } calls
    let q : FindQuery := { model := "user", conditions := [⟨"name", none, .str "ada", none⟩] }
    ((session.tx.findOne db q).run.run Memory.receive session.world).1 = .ok (some ada) ∧
      Answers store.tables session.tx "users" [⟨"name", .eq, .str "ada", .and, false⟩]
        (some ada) := by
  intro user ada store db calls session q
  have hstore : store.IsOf (.ofModels [user]) := (Memory.isOf_ofSchema _ _).seed _ _
  have hkeyed : TablesKeyed store.tables := .of_forall (by decide +kernel)
  have hresolver : db.resolver = (Schema.ofModels [user]).resolver := rfl
  have hrow : db.newRow "user" [("id", .num (.int 2)), ("name", .str "bob")] = .ok
      ("users", [("id", .num (.int 2))], [("id", .num (.int 2)), ("name", .str "bob")]) := by
    decide +kernel
  have hcalls : ∀ call ∈ calls, call.Regular db := by
    simpa [calls] using Call.regular_create hrow (by decide +kernel)
  have hrun : ((session.tx.findOne db q).run.run Memory.receive session.world).1 =
      .ok (some ada) := by decide +kernel
  have hfound : ((db.findOne q).run.run Memory.receive session.world).1 = .ok (some ada) := by
    decide +kernel
  have hholds : Place.Holds store.tables ⟨"users", [("id", .num (.int 1))]⟩ ada :=
    ⟨⟨user.primaryKey, [], [ada]⟩, by decide +kernel, by decide +kernel, by decide +kernel⟩
  have hunwritten : session.tx.buffer.write? ⟨"users", [("id", .num (.int 1))]⟩ = none := by
    decide +kernel
  refine ⟨hrun, (Session.answers_iff
    (by unfold Schema.TablesApart; decide +kernel) (w := { store })
    hstore hkeyed hresolver hcalls (q := q) ⟨by decide, rfl, rfl, rfl, rfl⟩ rfl
    (by decide +kernel) (by simp [NormalizedCondition.IsDefinite, Value.isNull]) hrun).mpr
      (.inr ⟨some ada, hfound, _, rfl, hholds, ?_⟩)⟩
  rw [hunwritten]
  trivial

/-- A row is put in place of a stored one under another name, and a read by the old name answers with
the stored row. -/
theorem Session.not_leaves_stale :
    let user : ModelDef := { name := "user", table := "users", primaryKey := { partition := "id" } }
    let stale : Item := [("id", .num (.int 1)), ("name", .str "ada")]
    let store := (Memory.ofSchema (.ofModels [user]) none).seed "users" [.map stale]
    let db : Database := { resolver := (Schema.ofModels [user]).resolver }
    let session := Session.run db { world := { store } }
      [.create "user" [("id", .num (.int 1)), ("name", .str "bob")]]
    let q : FindQuery := { model := "user", conditions := [⟨"name", none, .str "ada", none⟩] }
    ((session.tx.findOne db q).run.run Memory.receive session.world).1 = .ok (some stale) ∧
      ¬Leaves store.tables session.tx "users" stale := by
  intro user stale store db session q
  have hkeyed : TablesKeyed store.tables := .of_forall (by decide +kernel)
  have hstore : store.IsOf (.ofModels [user]) := (Memory.isOf_ofSchema _ _).seed _ _
  have hlies : db.LiesIn store.tables :=
    Database.liesIn (by unfold Schema.TablesApart; decide +kernel) hstore hkeyed.wellKeyed rfl
  have hrow : db.newRow "user" [("id", .num (.int 1)), ("name", .str "bob")] = .ok
      ("users", [("id", .num (.int 1))], [("id", .num (.int 1)), ("name", .str "bob")]) := by
    decide +kernel
  have hregular : Call.Regular db (.create "user" [("id", .num (.int 1)), ("name", .str "bob")]) :=
    Call.regular_create hrow (by decide +kernel)
  have hfollows : session.Follows store.tables store.pageSize False :=
    follows_run hkeyed hlies hstore.pageSize_ne ⟨⟨rfl, rfl, False.elim, False.elim⟩, tracks_empty _⟩
      (by simpa using hregular)
  have hholds : Place.Holds store.tables ⟨"users", [("id", .num (.int 1))]⟩ stale :=
    ⟨⟨user.primaryKey, [], [stale]⟩, by decide +kernel, by decide +kernel, by decide +kernel⟩
  refine ⟨by decide +kernel, ?_⟩
  rintro ⟨p, hp, hname, hrow⟩
  obtain rfl := (hfollows.tracks.holds_rowAt hkeyed hp hrow).eq_of_table_eq hholds hname
  have hput : session.tx.rowAt store.tables ⟨"users", [("id", .num (.int 1))]⟩ =
      some [("id", .num (.int 1)), ("name", .str "bob")] := by decide +kernel
  rw [hput] at hrow
  exact absurd (Option.some.inj hrow) (by decide +kernel)

end KeyedQuery
