import KeyedQuery.Proofs.Patch.Roundtrip
import KeyedQuery.Proofs.Transaction.Reads
import KeyedQuery.Proofs.Transaction.Tables

/-!
# Sessions

A `Session` makes one call of a transaction after another. A call that fails leaves the transaction as it
was; the others are listed as accepted. Along a session the transaction stays in step with the tables of
the store (`Session.follows_run`).

What the accepted calls would do to the tables if each were carried out at once is the reference
(`Session.reference`). If the calls are by key alone, the transaction sees at each place the row that
the reference has there (`Session.mirrors_run`).
-/

namespace KeyedQuery

open Transaction

/-! ## Calls one after another -/

/-- A transaction, its accepted calls, and the world that it is used in. -/
structure Session where
  /-- The transaction. -/
  tx : Transaction := {}
  /-- The calls that have succeeded, in order. -/
  accepted : List Call := []
  /-- The store, and what has been done with it. -/
  world : World Memory

namespace Session

/-- Make a call. -/
def step (db : Database) (s : Session) (call : Call) : Session :=
  match (call.run db s.tx).run.run Memory.receive s.world with
  | (.ok tx, world) => { tx, accepted := s.accepted ++ [call], world }
  | (.error _, world) => { s with world }

/-- Make calls one after another. -/
def run (db : Database) (s : Session) (calls : List Call) : Session :=
  calls.foldl (step db) s

variable {db : Database} {tables : Fields Table} {pageSize : Option Nat} {calm : Prop}
  {s : Session} {call : Call} {calls : List Call}

/-- The store has its tables, and the transaction is in step with them. -/
structure Follows (tables : Fields Table) (pageSize : Option Nat) (calm : Prop) (s : Session) :
    Prop where
  holds : Memory.Holds tables pageSize calm s.world.store
  tracks : s.tx.Tracks tables

/-- A call is refused, or it is accepted and has its effect. -/
theorem step_cases (h : s.Follows tables pageSize calm) (htables : TablesKeyed tables)
    (hlies : db.LiesIn tables) (hpageSize : pageSize ≠ some 0) (hregular : call.Regular db) :
    (s.step db call).Follows tables pageSize calm ∧
      (((s.step db call).tx = s.tx ∧ (s.step db call).accepted = s.accepted) ∨
        (s.step db call).accepted = s.accepted ++ [call] ∧ ∃ p f, call.effect? db = some (p, f) ∧
          Changes tables s.tx (s.step db call).tx p f) := by
  obtain ⟨hholds, hresult⟩ := h.tracks.ensures_call htables hlies hpageSize hregular s.world h.holds
  unfold step
  cases hrun : (call.run db s.tx).run.run Memory.receive s.world with
  | mk result world =>
    rw [hrun] at hholds hresult
    cases result with
    | error fault => exact ⟨⟨hholds, h.tracks⟩, .inl ⟨rfl, rfl⟩⟩
    | ok tx =>
      obtain ⟨p, f, heffect, hchanges⟩ := hresult
      exact ⟨⟨hholds, hchanges.tracks⟩, .inr ⟨rfl, p, f, heffect, hchanges⟩⟩

/-- Along a session the transaction stays in step with the tables of the store. -/
theorem follows_run (htables : TablesKeyed tables) (hlies : db.LiesIn tables)
    (hpageSize : pageSize ≠ some 0) : ∀ {calls : List Call} {s : Session},
      s.Follows tables pageSize calm → (∀ call ∈ calls, call.Regular db) →
        (s.run db calls).Follows tables pageSize calm
  | [], _, h, _ => h
  | call :: calls, s, h, hcalls => by
    show ((s.step db call).run db calls).Follows tables pageSize calm
    exact follows_run htables hlies hpageSize
      (step_cases h htables hlies hpageSize (hcalls call List.mem_cons_self)).1
      fun c hc => hcalls c (List.mem_cons_of_mem call hc)

end Session

/-! ## The reference -/

theorem Item.Patchable.patched {row patch : Item} (h : row.Patchable) (hpatch : patch.Patchable)
    (keys : KeySchema) : Item.Patchable (keys.patched row patch) := by
  cases h with
  | map ho hfields =>
    cases hpatch with
    | map ho' hfields' =>
      have hmerge := ho.merge (patch.filter fun field => field.1 ∉ keys.attributes)
      refine .map hmerge fun field hfield => ?_
      rcases Fields.get?_merge_eq_some (hmerge.get?_of_mem hfield) with hget | hget
      · exact hfields' _ (List.mem_filter.mp hget).1
      · exact hfields _ (Fields.mem_of_get?_eq_some hget)

namespace Transaction.Call

variable {db : Database} {tables ref : Fields Table} {call : Call} {p : Place}
  {f : Option Item → Option Item}

/-- The tables after the call, if it is carried out at once: a row is created in place of the one with
its key, an update puts its patch over the row with the key, and a deletion drops that row. -/
def applyTo (db : Database) (tables : Fields Table) : Call → Fields Table
  | .create model data =>
    match db.newRow model data with
    | .ok (table, _, item) => changeTable tables table fun t => t.upsert item
    | .error _ => tables
  | .update model conditions patch =>
    match target db model conditions with
    | .ok g => changeTable tables g.table fun t =>
      match t.find? g.key with
      | some row => t.upsert (db.patchedRow model g.keys row patch)
      | none => t
    | .error _ => tables
  | .delete model conditions =>
    match target db model conditions with
    | .ok g => changeTable tables g.table fun t => t.remove g.key
    | .error _ => tables

/-- The conditions do nothing but fix a key whose values a transaction can tell apart. -/
def FixesPlace (db : Database) (model : String) (conditions : List Condition) : Prop :=
  ∀ g, target db model conditions = .ok g →
    FixesKey g.keys g.conditions ∧ ∀ field ∈ g.key, field.2.IsKeyPart

/-- The call finds its row by key alone, and what it writes can be patched. -/
def ByKey (db : Database) : Call → Prop
  | .create model data => ∀ table key item, db.newRow model data = .ok (table, key, item) →
    (∀ field ∈ key, field.2.IsKeyPart) ∧ item.Patchable
  | .update model conditions patch =>
    FixesPlace db model conditions ∧ (db.resolver.physicalItem model patch).Patchable
  | .delete model conditions => FixesPlace db model conditions

theorem ByKey.regular (h : call.ByKey db) : call.Regular db := by
  cases call with
  | create model data => exact fun table key item hrow => (h table key item hrow).1
  | update model conditions patch => exact fun g hg => ⟨(h.1 g hg).2, (h.1 g hg).1.isDefinite⟩
  | delete model conditions => exact fun g hg => (h g hg).2

/-- What the reference makes of an update is what the update makes of the row at its place. -/
theorem applyTo_update_eq_set (hlies : db.LiesIn tables) (hlayout : SameLayout tables ref)
    {model : String} {conditions : List Condition} {patch : Item} {g : Target}
    (hg : target db model conditions = .ok g) (hfixes : FixesKey g.keys g.conditions)
    (hparts : ∀ field ∈ g.key, field.2.IsKeyPart) :
    (Call.update model conditions patch).applyTo db ref =
      g.place.set ref ((g.place.stored? ref).map (patchOver db model g patch)) := by
  obtain ⟨-, -, -, hfixed⟩ := target_eq_ok hg
  obtain ⟨t, ht, -, -, hp⟩ := g.isIn hlies hg hparts
  obtain ⟨u, hu, -⟩ := hlayout.exists_table ht
  have hstored : g.place.stored? ref = u.find? g.key := Place.stored?_eq hu
  rw [applyTo, hg, hstored]
  dsimp only
  rw [changeTable_eq hu]
  cases hfind : u.find? g.key with
  | some row =>
    have hhas : row.hasKey g.key = true :=
      List.find?_some (p := fun item : Item => item.hasKey g.key) hfind
    rw [Option.map_some, Place.set, patchOver,
      if_pos (hfixes.matchesAll_eq_hasKey hfixed row ▸ hhas)]
    exact (changeTable_eq hu fun t => t.upsert (db.patchedRow model g.keys row patch)).symm
  | none =>
    rw [Option.map_none, Place.set]
    refine Eq.trans ?_ (changeTable_eq hu fun t => t.remove g.key).symm
    rw [Table.remove_of_find?_eq_none hfind]

/-- A call by key sets the row at its place to what its effect makes of it. -/
theorem ByKey.applyTo_eq_set (h : call.ByKey db) (hlies : db.LiesIn tables)
    (hlayout : SameLayout tables ref) (heffect : call.effect? db = some (p, f)) :
    call.applyTo db ref = p.set ref (f (p.stored? ref)) := by
  cases call with
  | create model data =>
    obtain ⟨table, key, item, hrow, rfl, rfl⟩ := effect?_create heffect
    rw [applyTo, hrow]
    rfl
  | delete model conditions =>
    obtain ⟨g, hg, rfl, rfl⟩ := effect?_delete heffect
    rw [applyTo, hg]
    rfl
  | update model conditions patch =>
    obtain ⟨g, hg, rfl, rfl⟩ := effect?_update heffect
    obtain ⟨hfixes, hparts⟩ := h.1 g hg
    exact applyTo_update_eq_set hlies hlayout hg hfixes hparts

/-- What a call by key makes of a patchable row is a patchable row of the same place. -/
theorem ByKey.holds_effect (h : call.ByKey db) (hlies : db.LiesIn tables)
    (heffect : call.effect? db = some (p, f)) {row : Option Item}
    (hrow : ∀ item, row = some item → p.Holds tables item ∧ item.Patchable) :
    ∀ item, f row = some item → p.Holds tables item ∧ item.Patchable := by
  intro item hitem
  cases call with
  | create model data =>
    obtain ⟨table, key, created, hnew, rfl, rfl⟩ := effect?_create heffect
    obtain ⟨hparts, hpatchable⟩ := h table key created hnew
    obtain rfl := Option.some.inj hitem
    exact ⟨hlies.holds_newRow hnew hparts, hpatchable⟩
  | delete model conditions =>
    obtain ⟨g, hg, rfl, rfl⟩ := effect?_delete heffect
    cases hitem
  | update model conditions patch =>
    obtain ⟨g, hg, rfl, rfl⟩ := effect?_update heffect
    obtain ⟨t, ht, -, hkeys, -⟩ := g.isIn hlies hg (h.1 g hg).2
    obtain ⟨old, rfl, rfl⟩ := Option.map_eq_some_iff.mp hitem
    obtain ⟨hholds, hpatchable⟩ := hrow old rfl
    unfold patchOver
    split
    · rw [Database.patchedRow, hkeys]
      exact ⟨hholds.patched ht _, hpatchable.patched h.2 _⟩
    · exact ⟨hholds, hpatchable⟩

end Transaction.Call

namespace Session

variable {db : Database} {tables : Fields Table} {pageSize : Option Nat} {calm : Prop}
  {s : Session} {call : Call} {calls : List Call}

/-- The tables after the accepted calls, had each been carried out at once. -/
def reference (db : Database) (tables : Fields Table) (s : Session) : Fields Table :=
  s.accepted.foldl (Call.applyTo db) tables

/-- The transaction sees what the reference holds, and the rows of the reference can be patched. -/
structure Mirrors (db : Database) (tables : Fields Table) (s : Session) : Prop where
  layout : SameLayout tables (s.reference db tables)
  keyed : TablesKeyed (s.reference db tables)
  patchable : ∀ (p : Place) item, p.IsIn tables →
    p.stored? (s.reference db tables) = some item → item.Patchable
  rowAt_eq : ∀ p : Place, p.IsIn tables →
    s.tx.rowAt tables p = p.stored? (s.reference db tables)

/-- A call by key keeps the transaction and the reference alike. -/
theorem mirrors_step (hfollows : s.Follows tables pageSize calm) (h : s.Mirrors db tables)
    (htables : TablesKeyed tables) (hlies : db.LiesIn tables) (hpageSize : pageSize ≠ some 0)
    (hcall : call.ByKey db) : (s.step db call).Mirrors db tables := by
  obtain ⟨-, ⟨htx, haccepted⟩ | ⟨haccepted, p, f, heffect, hchanges⟩⟩ :=
    step_cases hfollows htables hlies hpageSize hcall.regular
  · have hreference : (s.step db call).reference db tables = s.reference db tables := by
      rw [reference, reference, haccepted]
    exact ⟨hreference ▸ h.layout, hreference ▸ h.keyed, hreference ▸ h.patchable,
      hreference ▸ htx ▸ h.rowAt_eq⟩
  · have hreference : (s.step db call).reference db tables =
        p.set (s.reference db tables) (f (p.stored? (s.reference db tables))) := by
      rw [reference, haccepted, List.foldl_append, List.foldl_cons, List.foldl_nil]
      exact hcall.applyTo_eq_set hlies h.layout heffect
    have hp := h.layout.isIn hchanges.isIn
    have hold : ∀ item, p.stored? (s.reference db tables) = some item →
        p.Holds tables item ∧ item.Patchable := fun item hitem =>
      ⟨h.layout.symm.holds (h.keyed.holds_of_stored? hp hitem),
        h.patchable p item hchanges.isIn hitem⟩
    have hrow := hcall.holds_effect hlies heffect hold
    have hholds : ∀ item, f (p.stored? (s.reference db tables)) = some item →
        p.Holds (s.reference db tables) item := fun item hitem => h.layout.holds (hrow item hitem).1
    have hstored : ∀ q : Place, q.IsIn tables → q.stored? ((s.step db call).reference db tables) =
        if q = p then f (p.stored? (s.reference db tables)) else
          q.stored? (s.reference db tables) := by
      intro q hq
      rw [hreference]
      exact Place.stored?_set h.keyed hp hholds (h.layout.isIn hq)
    refine ⟨?_, ?_, fun q item hq hitem => ?_, fun q hq => ?_⟩
    · rw [hreference]
      exact h.layout.trans (Place.sameLayout_set _ p _).symm
    · rw [hreference]
      exact h.keyed.set hp hholds
    · rw [hstored q hq] at hitem
      split at hitem
      · exact (hrow item hitem).2
      · exact h.patchable q item hq hitem
    · rw [hstored q hq, hchanges.rowAt_eq q hq, h.rowAt_eq p hchanges.isIn, h.rowAt_eq q hq]

/-- Along a session of calls by key the transaction sees what the reference holds. -/
theorem mirrors_run (htables : TablesKeyed tables) (hlies : db.LiesIn tables)
    (hpageSize : pageSize ≠ some 0) : ∀ {calls : List Call} {s : Session},
      s.Follows tables pageSize calm → s.Mirrors db tables → (∀ call ∈ calls, call.ByKey db) →
        (s.run db calls).Mirrors db tables
  | [], _, _, h, _ => h
  | call :: calls, s, hfollows, h, hcalls => by
    have hcall := hcalls call List.mem_cons_self
    show ((s.step db call).run db calls).Mirrors db tables
    exact mirrors_run htables hlies hpageSize
      (step_cases hfollows htables hlies hpageSize hcall.regular).1
      (mirrors_step hfollows h htables hlies hpageSize hcall)
      fun c hc => hcalls c (List.mem_cons_of_mem call hc)

end Session

end KeyedQuery
