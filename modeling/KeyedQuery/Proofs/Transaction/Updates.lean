import KeyedQuery.Proofs.Conduct
import KeyedQuery.Proofs.Plan.Sources
import KeyedQuery.Transaction.Basic

/-!
# What writes by model come to

What is buffered and staged by a write that succeeds is said once for each of them, with what it depends on
(`Transaction.create_cases`, `Transaction.delete_cases` and those of the ways to change a row).

An update of a row looks at the pending write for the row first, then at the staged updates, and reads the
row if there is neither (`Transaction.update_eq`). `Transaction.Revised` lists what it may come to.
`Transaction.keepsTo_update_reads` says that this is all, whatever the store answers, and that all requests are
reads, and `Transaction.ensures_update_revised` carries over what is known of the row that is read.
-/

namespace KeyedQuery.Transaction

variable {db : Database} {tx : Transaction} {model : String} {conditions : List Condition} {g : Target}
  {patch : Item} {result : Option Item × Transaction} {P : Item → Prop}

/-! ## Buffered writes -/

theorem create_cases {data : Item} {created : Item × Transaction}
    (h : tx.create db model data = .ok created) : ∃ table key item b,
      db.newRow model data = .ok (table, key, item) ∧
      tx.buffer.stage (.put table item) key = .ok b ∧
      created = (item, ⟨b, Fields.erase tx.updates (rowId table key)⟩) := by
  obtain ⟨⟨table, key, item⟩, hrow, h⟩ := exists_of_bind_eq_ok h
  obtain ⟨b, hstage, h⟩ := exists_of_bind_eq_ok h
  exact ⟨table, key, item, b, hrow, hstage, (Except.ok.inj h).symm⟩

theorem delete_cases {tx' : Transaction} (h : tx.delete db model conditions = .ok tx') : ∃ g b,
    target db model conditions = .ok g ∧ tx.buffer.stage (.delete g.table g.key) g.key = .ok b ∧
    tx' = ⟨b, Fields.erase tx.updates g.id⟩ := by
  obtain ⟨g, hg, h⟩ := exists_of_bind_eq_ok h
  obtain ⟨b, hstage, h⟩ := exists_of_bind_eq_ok h
  exact ⟨g, b, hg, hstage, (Except.ok.inj h).symm⟩

theorem stageUpdate_cases {current next : Item} (h : tx.stageUpdate g current next = .ok result) :
    ∃ change b, Patch.between current next = .ok change ∧
      tx.buffer.stage (.update g.table g.key change.expression change.attributes) g.key = .ok b ∧
      result = (some next, ⟨b, Fields.insert tx.updates g.id ⟨g.table, current, next⟩⟩) := by
  obtain ⟨change, hchange, h⟩ := exists_of_bind_eq_ok h
  obtain ⟨b, hstage, h⟩ := exists_of_bind_eq_ok h
  exact ⟨change, b, of_mapError_eq_ok hchange, hstage, (Except.ok.inj h).symm⟩

theorem changePut_cases {item : Item} (h : tx.changePut db model g item patch = .ok result) :
    (matchesAll g.conditions item = true ∧ ∃ b,
      tx.buffer.stage (.put g.table (db.patchedRow model g.keys item patch)) g.key = .ok b ∧
      result = (some (db.patchedRow model g.keys item patch), ⟨b, tx.updates⟩)) ∨
    matchesAll g.conditions item = false ∧ result = (none, tx) := by
  unfold changePut at h
  split at h
  · rename_i hmatches
    obtain ⟨b, hstage, h⟩ := exists_of_bind_eq_ok h
    exact .inl ⟨hmatches, b, hstage, (Except.ok.inj h).symm⟩
  · rename_i hnot
    exact .inr ⟨Bool.eq_false_iff.mpr hnot, (Except.ok.inj h).symm⟩

theorem extendUpdate_cases {staged : StagedUpdate}
    (h : tx.extendUpdate db model g staged patch = .ok result) :
    (matchesAll g.conditions staged.next = true ∧
      tx.stageUpdate g staged.current (db.patchedRow model g.keys staged.next patch) = .ok result) ∨
    matchesAll g.conditions staged.next = false ∧ result = (none, tx) := by
  unfold extendUpdate at h
  split at h
  · rename_i hmatches
    exact .inl ⟨hmatches, h⟩
  · rename_i hnot
    exact .inr ⟨Bool.eq_false_iff.mpr hnot, (Except.ok.inj h).symm⟩

/-! ## Updates -/

/-- What the writes that the transaction holds let an update of the target row come to; none if the row has
to be read. -/
def ownUpdate? (db : Database) (tx : Transaction) (model : String) (g : Target) (patch : Item) :
    Except Fault (Option (Option Item × Transaction)) := do
  match ← tx.buffer.pending g.table g.key with
  | some (.put _ item) => (tx.changePut db model g item patch).map some
  | some (.delete _ _) => .ok (some (none, tx))
  | some (.update _ _ _ _) | none =>
    match Fields.get? tx.updates g.id with
    | some staged => (tx.extendUpdate db model g staged patch).map some
    | none => .ok none

/-- What an update of the target row makes of the row as it was read. -/
def readUpdate (db : Database) (tx : Transaction) (model : String) (g : Target) (patch : Item) :
    Option Item → Except Fault (Option Item × Transaction)
  | none => .ok (none, tx)
  | some current => tx.stageUpdate g current (db.patchedRow model g.keys current patch)

/-- An update goes by the writes that the transaction holds, and reads the row if they say nothing of
it. -/
theorem update_eq (db : Database) (tx : Transaction) (model : String) (conditions : List Condition)
    (patch : Item) : tx.update db model conditions patch = (do
      let g ← Run.ofExcept (target db model conditions)
      match ← Run.ofExcept (tx.ownUpdate? db model g patch) with
      | some result => pure result
      | none =>
        let found ← db.findOne { model, conditions }
        Run.ofExcept (tx.readUpdate db model g patch found)) := by
  have hmap : ∀ {e : Except Fault (Option Item × Transaction)}
      {F : Option (Option Item × Transaction) → Run (Option Item × Transaction)},
      (∀ result, F (some result) = pure result) →
      Run.ofExcept e = Run.ofExcept (e.map some) >>= F := by
    intro e F hF
    cases e with
    | error fault => rfl
    | ok result => exact (hF result).symm
  have hread : ∀ (g : Target), (do
      match ← db.findOne { model, conditions } with
      | none => pure (none, tx)
      | some current =>
        Run.ofExcept (tx.stageUpdate g current (db.patchedRow model g.keys current patch)) :
          Run (Option Item × Transaction)) =
      db.findOne { model, conditions } >>= fun found =>
        Run.ofExcept (tx.readUpdate db model g patch found) := by
    intro g
    refine congrArg (db.findOne { model, conditions } >>= ·) (funext fun found => ?_)
    cases found <;> rfl
  unfold update
  refine congrArg (Run.ofExcept (target db model conditions) >>= ·) (funext fun g => ?_)
  unfold ownUpdate?
  cases tx.buffer.pending g.table g.key with
  | error fault => rfl
  | ok pending =>
    have hstaged : (match Fields.get? tx.updates g.id with
        | some staged => Run.ofExcept (tx.extendUpdate db model g staged patch)
        | none => (do
          match ← db.findOne { model, conditions } with
          | none => pure (none, tx)
          | some current =>
            Run.ofExcept (tx.stageUpdate g current (db.patchedRow model g.keys current patch)))) =
        Run.ofExcept (match Fields.get? tx.updates g.id with
          | some staged => (tx.extendUpdate db model g staged patch).map some
          | none => .ok none) >>= fun own => (match own with
          | some result => pure result
          | none => do
            let found ← db.findOne { model, conditions }
            Run.ofExcept (tx.readUpdate db model g patch found) : Run _) := by
      cases Fields.get? tx.updates g.id with
      | some staged => exact hmap fun _ => rfl
      | none => exact hread g
    cases pending with
    | none => exact hstaged
    | some w =>
      cases w with
      | put name item => exact hmap fun _ => rfl
      | update name key expression attributes => exact hstaged
      | delete name key => rfl

/-- What an update of the target row comes to if it succeeds and rows that are read have a property. -/
inductive Revised (P : Item → Prop) (db : Database) (tx : Transaction) (model : String) (g : Target)
    (patch : Item) : Option Item × Transaction → Prop where
  /-- There is no row. -/
  | missing : Revised P db tx model g patch (none, tx)
  /-- The row is one that the transaction puts. -/
  | put {name : String} {item : Item} {result : Option Item × Transaction}
      (hpending : tx.buffer.pending g.table g.key = .ok (some (.put name item)))
      (hresult : tx.changePut db model g item patch = .ok result) :
      Revised P db tx model g patch result
  /-- The row has a staged update. -/
  | extended {staged : StagedUpdate} {result : Option Item × Transaction}
      (hstaged : Fields.get? tx.updates g.id = some staged)
      (hresult : tx.extendUpdate db model g staged patch = .ok result) :
      Revised P db tx model g patch result
  /-- The row was read. -/
  | read {current : Item} {result : Option Item × Transaction} (hcurrent : P current)
      (hresult : tx.stageUpdate g current (db.patchedRow model g.keys current patch) = .ok result) :
      Revised P db tx model g patch result

theorem revised_of_ownUpdate? (h : tx.ownUpdate? db model g patch = .ok (some result)) :
    Revised P db tx model g patch result := by
  unfold ownUpdate? at h
  obtain ⟨pending, hpending, h⟩ := exists_of_bind_eq_ok h
  have hstaged : (match Fields.get? tx.updates g.id with
      | some staged => (tx.extendUpdate db model g staged patch).map some
      | none => .ok none) = .ok (some result) → Revised P db tx model g patch result := by
    intro h
    split at h
    · obtain ⟨_, hresult, hsome⟩ := exists_of_map_eq_ok h
      exact Option.some.inj hsome ▸ .extended ‹_› hresult
    · cases h
  cases pending with
  | none => exact hstaged h
  | some w =>
    cases w with
    | put name item =>
      obtain ⟨_, hresult, hsome⟩ := exists_of_map_eq_ok h
      exact Option.some.inj hsome ▸ .put hpending hresult
    | update name key expression attributes => exact hstaged h
    | delete name key =>
      obtain rfl := Option.some.inj (Except.ok.inj h)
      exact .missing

theorem revised_of_readUpdate {found : Option Item} (hfound : ∀ row, found = some row → P row)
    (h : tx.readUpdate db model g patch found = .ok result) :
    Revised P db tx model g patch result := by
  cases found with
  | none =>
    obtain rfl := Except.ok.inj h
    exact .missing
  | some current => exact .read (hfound current rfl) h

/-- An update only reads, and there is nothing else that it may come to. -/
theorem keepsTo_update_reads (db : Database) (tx : Transaction) (model : String)
    (conditions : List Condition) (patch : Item) :
    Run.KeepsTo Request.Reads
      (fun result => ∃ g, target db model conditions = .ok g ∧
        Revised (fun _ => True) db tx model g patch result)
      (tx.update db model conditions patch) := by
  rw [update_eq]
  refine .ofExcept_bind fun g hg => .ofExcept_bind fun own hown => ?_
  cases own with
  | some result => exact .pure ⟨g, hg, revised_of_ownUpdate? hown⟩
  | none =>
    refine (Run.KeepsTo.of_asks (Database.asks_findOne_reads _)).bind fun found _ => ?_
    exact .ofExcept fun _ h => ⟨g, hg, revised_of_readUpdate (fun _ _ => trivial) h⟩

/-- What is known of the rows that the store shows is known of the row that an update reads. -/
theorem ensures_update_revised {σ : Type} {client : Client σ} {I : σ → Prop}
    (hfind : ∀ g, target db model conditions = .ok g →
      Run.Ensures client I (db.findOne { model, conditions })
        (fun found => ∀ row, found = some row → P row) (fun _ => True)) :
    Run.Ensures client I (tx.update db model conditions patch)
      (fun result => ∃ g, target db model conditions = .ok g ∧ Revised P db tx model g patch result)
      (fun _ => True) := by
  rw [update_eq]
  refine .ofExcept_bind (fun g hg => ?_) fun _ _ => trivial
  refine .ofExcept_bind (fun own hown => ?_) fun _ _ => trivial
  cases own with
  | some result => exact .pure ⟨g, hg, revised_of_ownUpdate? hown⟩
  | none =>
    refine (hfind g hg).bind fun found hfound => ?_
    exact .ofExcept (fun _ h => ⟨g, hg, revised_of_readUpdate hfound h⟩) fun _ _ => trivial

end KeyedQuery.Transaction
