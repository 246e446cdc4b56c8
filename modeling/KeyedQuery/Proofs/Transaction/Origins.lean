import KeyedQuery.Proofs.Database.UpdateFrame
import KeyedQuery.Proofs.Transaction.Bookkeeping

/-!
# Where staged updates come from

An update stages one row for the target, from the row that was read or from where the update staged before
it was from (`Transaction.Revised.mem_updates`). If rows that are called about are told apart by their
identifiers, that is a stored row in every case, however often it is updated
(`Transaction.Drawn.afterCalls`).
-/

namespace KeyedQuery.Transaction

variable {db : Database} {tables : Fields Table} {places : List Place} {tx tx' : Transaction}
  {model : String} {conditions : List Condition} {g : Target} {call : Call} {next patch : Item}
  {result : Option Item × Transaction} {P : Item → Prop}

/-! ## One call -/

theorem mem_updates_of_stageUpdate {current : Item} (h : tx.stageUpdate g current next = .ok result)
    {field : String × StagedUpdate} (hfield : field ∈ result.2.updates) :
    field = (g.id, ⟨g.table, current, next⟩) ∨ field ∈ tx.updates := by
  obtain ⟨change, b, -, -, rfl⟩ := stageUpdate_cases h
  exact Fields.mem_insert hfield

/-- The staged updates after an update are those before it and one for the target row, from a row that
was read or from where the one before it was from. -/
theorem Revised.mem_updates (h : Revised P db tx model g patch result)
    {field : String × StagedUpdate} (hfield : field ∈ result.2.updates) :
    field ∈ tx.updates ∨ ∃ current next, field = (g.id, ⟨g.table, current, next⟩) ∧
      (P current ∨ ∃ staged, Fields.get? tx.updates g.id = some staged ∧ staged.current = current) := by
  cases h with
  | missing => exact .inl hfield
  | put hpending hresult =>
    rcases changePut_cases hresult with ⟨-, b, -, rfl⟩ | ⟨-, rfl⟩ <;> exact .inl hfield
  | @extended staged _ hstaged hresult =>
    rcases extendUpdate_cases hresult with ⟨-, hresult⟩ | ⟨-, rfl⟩
    · rcases mem_updates_of_stageUpdate hresult hfield with rfl | hfield
      · exact .inr ⟨_, _, rfl, .inr ⟨staged, hstaged, rfl⟩⟩
      · exact .inl hfield
    · exact .inl hfield
  | read hcurrent hresult =>
    rcases mem_updates_of_stageUpdate hresult hfield with rfl | hfield
    · exact .inr ⟨_, _, rfl, .inl hcurrent⟩
    · exact .inl hfield

/-! ## Calls one after another -/

/-- Staged updates are from stored rows. -/
def Drawn (tables : Fields Table) (tx : Transaction) : Prop :=
  ∀ field ∈ tx.updates, ∃ t, Fields.get? tables field.2.table = some t ∧ field.2.current ∈ t.items

theorem drawn_empty (tables : Fields Table) : Drawn tables {} := by
  simp [Drawn]

namespace Drawn

theorem erase (h : Drawn tables tx) (buffer : WriteBuffer) (id : String) :
    Drawn tables ⟨buffer, Fields.erase tx.updates id⟩ := fun field hfield =>
  h field (List.mem_filter.mp hfield).1

theorem ensures_call (h : Drawn tables tx) (hfiled : Filed tables places tx) (hkeys : db.KeysIn tables)
    (hcall : ∀ p ∈ call.place? db, p ∈ places ∧ ∀ a ∈ places, a.id = p.id → a.SameRow p)
    {pageSize : Option Nat} :
    Run.Ensures Memory.receive (Memory.Holds tables pageSize False) (call.run db tx)
      (fun tx' => Drawn tables tx') (fun _ => True) := by
  cases call with
  | create model data =>
    refine .ofExcept (fun tx' hresult => ?_) fun _ _ => trivial
    obtain ⟨created, hcreate, rfl⟩ := exists_of_map_eq_ok hresult
    obtain ⟨table, key, item, b, -, -, rfl⟩ := create_cases hcreate
    exact h.erase b _
  | update model conditions patch =>
    have hfind : ∀ g, target db model conditions = .ok g →
        Run.Ensures Memory.receive (Memory.Holds tables pageSize False)
          (db.findOne { model, conditions }) (fun found => ∀ row, found = some row →
            ∀ g, target db model conditions = .ok g →
              ∃ t, Fields.get? tables g.table = some t ∧ row ∈ t.items) (fun _ => True) := by
      intro g hg w hw
      refine ⟨(ensures_findOne_hasKey hg (retains_plain db model conditions _) w hw).1, ?_⟩
      cases hfound : ((db.findOne { model, conditions }).run.run Memory.receive w).1 with
      | error fault => trivial
      | ok found =>
        rintro row rfl g' hg'
        obtain ⟨t, ht, -⟩ := Target.isKeyed hkeys hg'
        exact ⟨t, ht, Database.mem_items_of_findOne (target_eq_ok hg').1 (hw.tables_eq ▸ ht) hfound⟩
    refine (ensures_update_revised hfind).bind ?_
    rintro result ⟨g, hg, hrevised⟩
    refine .pure fun field hfield => ?_
    rcases hrevised.mem_updates hfield with
      hfield | ⟨current, next, rfl, hcurrent | ⟨staged, hstaged, rfl⟩⟩
    · exact h field hfield
    · exact hcurrent g hg
    · obtain ⟨a, ha, hid, hof⟩ := hfiled.updates _ (Fields.mem_of_get?_eq_some hstaged)
      have hsame := (hcall g.place (by rw [Call.place?, Call.effect?, hg]; rfl)).2 a ha hid
      have htable : staged.table = g.table := hof.table_eq.trans hsame.1
      obtain ⟨t, ht, hmem⟩ := h _ (Fields.mem_of_get?_eq_some hstaged)
      exact ⟨t, htable ▸ ht, hmem⟩
  | delete model conditions =>
    refine .ofExcept (fun tx' hresult => ?_) fun _ _ => trivial
    obtain ⟨g, b, -, -, rfl⟩ := delete_cases hresult
    exact h.erase b _

/-- A call leaves the tables alone, and updates staged from rows that are stored in them. -/
theorem afterCall {state : Transaction × World Memory} (h : Drawn tables state.1)
    (hfiled : Filed tables places state.1) (htables : state.2.store.tables = tables)
    (hkeys : db.KeysIn tables)
    (hcall : ∀ p ∈ call.place? db, p ∈ places ∧ ∀ a ∈ places, a.id = p.id → a.SameRow p) :
    Drawn tables (Transaction.afterCall db Memory.receive state call).1 ∧
      (Transaction.afterCall db Memory.receive state call).2.store.tables = tables := by
  have hensures := h.ensures_call hfiled hkeys hcall state.2 ⟨htables, rfl, False.elim, False.elim⟩
  unfold Transaction.afterCall
  cases hrun : (call.run db state.1).run.run Memory.receive state.2 with
  | mk result world =>
    rw [hrun] at hensures
    cases result with
    | error fault => exact ⟨h, hensures.1.tables_eq⟩
    | ok tx => exact ⟨hensures.2, hensures.1.tables_eq⟩

/-- Calls one after another stage updates from stored rows. -/
theorem afterCalls {state : Transaction × World Memory} (h : Drawn tables state.1)
    (hfiled : Filed tables places state.1) (htables : state.2.store.tables = tables)
    (hkeys : db.KeysIn tables) {calls : List Call}
    (hcalls : ∀ call ∈ calls, ∀ p ∈ call.place? db,
      p ∈ places ∧ ∀ a ∈ places, a.id = p.id → a.SameRow p) :
    Drawn tables (Transaction.afterCalls db Memory.receive state calls).1 := by
  induction calls generalizing state with
  | nil => exact h
  | cons call calls ih =>
    obtain ⟨hcall, hrest⟩ := List.forall_mem_cons.mp hcalls
    obtain ⟨hdrawn, htables⟩ := h.afterCall hfiled htables hkeys hcall
    exact ih hdrawn (hfiled.afterCall hkeys hcall) htables hrest

end Drawn

end KeyedQuery.Transaction
