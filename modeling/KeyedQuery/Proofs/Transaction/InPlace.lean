import KeyedQuery.Transaction.Basic

/-!
# Transactions in place

`WriteBuffer` and `Transaction` answer a call with the buffer or the transaction that follows, so a call
that fails cannot leave half a change behind. Here the same calls change one buffer and one transaction in
place, step by step, and a fault in the middle of a call keeps what the steps before it have changed
(`InPlace`). Every call does its checks before its changes, so both come to the same: a call in place that
fails leaves everything as it was (`WriteBuffer.InPlace.on_stage`, `Transaction.InPlace.on_create`,
`Transaction.InPlace.on_update`, `Transaction.InPlace.on_delete`). The exception is a commit, which takes
the writes out of the buffer before it knows what becomes of them (`WriteBuffer.InPlace.on_commit`).
-/

namespace KeyedQuery

variable {α β τ : Type}

/-- A dialogue that changes a state as it goes. A fault ends it, and what it has changed until then
stays. -/
abbrev InPlace (τ : Type) := ExceptT Fault (StateT τ Dialogue)

namespace InPlace

/-- The dialogue from a state on, which ends with what the state is then. -/
def on (p : InPlace τ α) (x : τ) : Dialogue (Except Fault α × τ) :=
  p.run.run x

/-- A result that may be a fault. -/
def ofExcept (e : Except Fault α) : InPlace τ α :=
  ExceptT.mk fun x => pure (e, x)

/-- A dialogue that does not look at the state. -/
def ofDialogue (p : Dialogue α) : InPlace τ α :=
  ExceptT.mk fun x => (fun a => (.ok a, x)) <$> p

/-- A dialogue that does not look at the state and may end with a fault. -/
def ofRun (p : Run α) : InPlace τ α :=
  ofDialogue p.run >>= ofExcept

/-- What remains of an attempt: the state that it leads to, or the one before if it fails. -/
def settle (x : τ) : Except Fault (α × τ) → Except Fault α × τ
  | .ok (a, next) => (.ok a, next)
  | .error fault => (.error fault, x)

theorem on_bind (p : InPlace τ α) (f : α → InPlace τ β) (x : τ) :
    (p >>= f).on x = p.on x >>= fun ended =>
      match ended with
      | (.ok a, next) => (f a).on next
      | (.error fault, next) => pure (.error fault, next) := by
  refine congrArg (p.on x >>= ·) (funext fun ended => ?_)
  obtain ⟨result, next⟩ := ended
  cases result <;> rfl

theorem on_ofExcept_bind (e : Except Fault α) (f : α → InPlace τ β) (x : τ) :
    (ofExcept e >>= f).on x =
      match e with
      | .ok a => (f a).on x
      | .error fault => pure (.error fault, x) := by
  rw [on_bind]
  cases e <;> rfl

theorem on_ofDialogue_bind (p : Dialogue α) (f : α → InPlace τ β) (x : τ) :
    (ofDialogue p >>= f).on x = p >>= fun a => (f a).on x := by
  rw [on_bind]
  show ((fun a => (Except.ok a, x)) <$> p) >>= _ = _
  rw [map_eq_pure_bind, bind_assoc]
  rfl

theorem on_ofRun_bind (p : Run α) (f : α → InPlace τ β) (x : τ) :
    (ofRun p >>= f).on x = p.run >>= fun result =>
      match result with
      | .ok a => (f a).on x
      | .error fault => pure (.error fault, x) := by
  rw [ofRun, bind_assoc, on_ofDialogue_bind]
  exact congrArg (p.run >>= ·) (funext fun result => on_ofExcept_bind result f x)

end InPlace

/-! ## Buffers -/

namespace WriteBuffer.InPlace

/-- Check that the buffer still takes calls. -/
def requireActive : InPlace WriteBuffer Unit := do
  InPlace.ofExcept (← get).requireActive

/-- Put a write behind the others. -/
def add (w : Write) : InPlace WriteBuffer Unit := do
  requireActive
  if maxTransactionWrites ≤ (← get).writes.length then
    throw (.transactionLimit maxTransactionWrites)
  modify fun b => { b with writes := b.writes ++ [w] }

/-- Look up the last write to the row of a key. -/
def pending (table : String) (key : Item) : InPlace WriteBuffer (Option Write) := do
  requireActive
  let b ← get
  pure ((b.position? table key).bind fun i => b.writes[i]?)

/-- Make a write the one to the row of a key. -/
def stage (w : Write) (key : Item) : InPlace WriteBuffer Unit := do
  requireActive
  match (← get).position? w.table key with
  | some i => modify fun b => { b with writes := b.writes.set i w }
  | none => add w

/-- Look up the row last put into a table among those that satisfy conditions. -/
def search (table : String) (conditions : List NormalizedCondition) :
    InPlace WriteBuffer (Option Item) := do
  requireActive
  pure ((← get).writes.reverse.findSome? (putRow? table conditions))

/-- Send the writes as one transaction and close the buffer. The buffer is emptied first. -/
def commit (retry : RetryConfig) (token : String) : InPlace WriteBuffer Unit := do
  requireActive
  let writes := (← get).writes
  if writes.isEmpty then
    modify fun b => { b with status := .committed }
  else
    modify fun b => { b with writes := [] }
    match ← InPlace.ofDialogue (retry.request (.transact writes token)).run with
    | .ok _ =>
      InPlace.ofDialogue (Dialogue.count .transactionsCommitted 1)
      modify fun b => { b with status := .committed }
    | .error fault =>
      modify fun b => { b with status := .aborted }
      throw fault

/-- Drop the writes and close the buffer. -/
def abort : InPlace WriteBuffer Unit := do
  requireActive
  modify fun b => { b with writes := [] }
  modify fun b => { b with status := .aborted }

variable (b : WriteBuffer)

theorem on_requireActive_bind (f : Unit → InPlace WriteBuffer α) :
    (requireActive >>= f).on b =
      match b.requireActive with
      | .ok _ => (f ()).on b
      | .error fault => pure (.error fault, b) := by
  have hcheck : requireActive.on b = pure (b.requireActive, b) := rfl
  rw [InPlace.on_bind, hcheck]
  cases b.requireActive <;> rfl

theorem on_add (w : Write) :
    (add w).on b = pure (InPlace.settle b ((b.add w).map fun next => ((), next))) := by
  rw [add, on_requireActive_bind, WriteBuffer.add]
  cases b.requireActive with
  | error fault => rfl
  | ok _ =>
    show (ite (maxTransactionWrites ≤ b.writes.length) _ _ : InPlace WriteBuffer Unit).on b =
      pure (InPlace.settle b (Except.map _ (ite _ _ _)))
    split <;> rfl

theorem on_pending (table : String) (key : Item) :
    (pending table key).on b = pure (b.pending table key, b) := by
  rw [pending, on_requireActive_bind, WriteBuffer.pending]
  cases b.requireActive <;> rfl

theorem on_stage (w : Write) (key : Item) :
    (stage w key).on b = pure (InPlace.settle b ((b.stage w key).map fun next => ((), next))) := by
  rw [stage, on_requireActive_bind, WriteBuffer.stage]
  cases b.requireActive with
  | error fault => rfl
  | ok _ =>
    show InPlace.on (match b.position? w.table key with
      | some i => modify fun b => { b with writes := b.writes.set i w }
      | none => add w) b = pure (InPlace.settle b (Except.map _ (match b.position? w.table key with
        | some i => .ok { b with writes := b.writes.set i w }
        | none => b.add w)))
    cases b.position? w.table key with
    | some i => rfl
    | none => exact on_add b w

theorem on_search (table : String) (conditions : List NormalizedCondition) :
    (search table conditions).on b = pure (b.search table conditions, b) := by
  rw [search, on_requireActive_bind, WriteBuffer.search]
  cases b.requireActive <;> rfl

theorem on_abort : abort.on b = pure (InPlace.settle b (b.abort.map fun next => ((), next))) := by
  rw [abort, on_requireActive_bind, WriteBuffer.abort]
  cases b.requireActive <;> rfl

/-- That the buffer is empty while its writes are being sent shows in nothing. -/
theorem on_commit (retry : RetryConfig) (token : String) :
    (commit retry token).on b = b.commit retry token := by
  rw [commit, on_requireActive_bind, WriteBuffer.commit]
  cases b.requireActive with
  | error fault => rfl
  | ok _ =>
    show (ite (b.writes.isEmpty = true) _ _ : InPlace WriteBuffer Unit).on b = ite _ _ _
    split
    · rfl
    · refine (InPlace.on_ofDialogue_bind _ _ _).trans ?_
      refine congrArg ((retry.request (.transact b.writes token)).run >>= ·) (funext fun result => ?_)
      cases result <;> rfl

end WriteBuffer.InPlace

/-! ## Transactions -/

namespace Transaction.InPlace

/-- Make a call of the buffer of a transaction. -/
def onBuffer (p : InPlace WriteBuffer α) : InPlace Transaction α :=
  ExceptT.mk fun tx => (fun ended => (ended.1, { tx with buffer := ended.2 })) <$> p.on tx.buffer

/-- Buffer a new row of a model, and return it as it will be stored. -/
def create (db : Database) (model : String) (data : Item) : InPlace Transaction Item := do
  let (table, key, item) ← InPlace.ofExcept (db.newRow model data)
  onBuffer (WriteBuffer.InPlace.stage (.put table item) key)
  modify fun tx => { tx with updates := Fields.erase tx.updates (rowId table key) }
  pure item

/-- Buffer the update of the target row from the row as it was read to the row as it will be. -/
def stageUpdate (t : Target) (current next : Item) : InPlace Transaction (Option Item) := do
  let change ← InPlace.ofExcept (Database.patchBetween current next)
  let write := Write.update t.table t.key change.expression change.attributes
  onBuffer (WriteBuffer.InPlace.stage write t.key)
  modify fun tx => { tx with updates := Fields.insert tx.updates t.id ⟨t.table, current, next⟩ }
  pure (some next)

/-- Change a row that the transaction itself puts. -/
def changePut (db : Database) (model : String) (t : Target) (item patch : Item) :
    InPlace Transaction (Option Item) := do
  if matchesAll t.conditions item then
    let next := db.patchedRow model t.keys item patch
    onBuffer (WriteBuffer.InPlace.stage (.put t.table next) t.key)
    pure (some next)
  else
    pure none

/-- Change a row that is stored. If the transaction already updates it, the update is extended, and
otherwise the row is read. -/
def changeStored (db : Database) (model : String) (conditions : List Condition) (t : Target)
    (patch : Item) : InPlace Transaction (Option Item) := do
  match Fields.get? (← get).updates t.id with
  | some staged =>
    if matchesAll t.conditions staged.next then
      stageUpdate t staged.current (db.patchedRow model t.keys staged.next patch)
    else
      pure none
  | none =>
    match ← InPlace.ofRun (db.findOne { model, conditions }) with
    | none => pure none
    | some current => stageUpdate t current (db.patchedRow model t.keys current patch)

/-- Put a patch over the row that the conditions fix, and return the row as it will be; none if
there is no such row. -/
def update (db : Database) (model : String) (conditions : List Condition) (patch : Item) :
    InPlace Transaction (Option Item) := do
  let t ← InPlace.ofExcept (target db model conditions)
  match ← onBuffer (WriteBuffer.InPlace.pending t.table t.key) with
  | some (.put _ item) => changePut db model t item patch
  | some (.delete _ _) => pure none
  | some (.update _ _ _ _) | none => changeStored db model conditions t patch

/-- Buffer that the row that the conditions fix is dropped. -/
def delete (db : Database) (model : String) (conditions : List Condition) :
    InPlace Transaction Unit := do
  let t ← InPlace.ofExcept (target db model conditions)
  onBuffer (WriteBuffer.InPlace.stage (.delete t.table t.key) t.key)
  modify fun tx => { tx with updates := Fields.erase tx.updates t.id }

variable (db : Database) (tx : Transaction) (model : String)

/-- A write is staged before anything else changes. -/
theorem on_onBuffer_stage_bind (w : Write) (key : Item) (f : Unit → InPlace Transaction α) :
    (onBuffer (WriteBuffer.InPlace.stage w key) >>= f).on tx =
      match tx.buffer.stage w key with
      | .ok buffer => (f ()).on { tx with buffer }
      | .error fault => pure (.error fault, tx) := by
  rw [InPlace.on_bind]
  show ((fun ended : Except Fault Unit × WriteBuffer =>
    (ended.1, { tx with buffer := ended.2 })) <$> (WriteBuffer.InPlace.stage w key).on tx.buffer) >>=
      _ = _
  rw [WriteBuffer.InPlace.on_stage]
  cases tx.buffer.stage w key <;> rfl

theorem on_onBuffer_pending_bind (table : String) (key : Item)
    (f : Option Write → InPlace Transaction α) :
    (onBuffer (WriteBuffer.InPlace.pending table key) >>= f).on tx =
      match tx.buffer.pending table key with
      | .ok write? => (f write?).on tx
      | .error fault => pure (.error fault, tx) := by
  rw [InPlace.on_bind]
  show ((fun ended : Except Fault (Option Write) × WriteBuffer =>
    (ended.1, { tx with buffer := ended.2 })) <$>
      (WriteBuffer.InPlace.pending table key).on tx.buffer) >>= _ = _
  rw [WriteBuffer.InPlace.on_pending]
  cases tx.buffer.pending table key <;> rfl

theorem on_create (data : Item) :
    (create db model data).on tx = pure (InPlace.settle tx (tx.create db model data)) := by
  rw [create, InPlace.on_ofExcept_bind, Transaction.create]
  cases db.newRow model data with
  | error fault => rfl
  | ok row =>
    refine (on_onBuffer_stage_bind tx _ _ _).trans ?_
    show _ = pure (InPlace.settle tx (tx.buffer.stage _ _ >>= _))
    cases tx.buffer.stage (.put row.1 row.2.2) row.2.1 <;> rfl

theorem on_delete (conditions : List Condition) :
    (delete db model conditions).on tx =
      pure (InPlace.settle tx ((tx.delete db model conditions).map fun next => ((), next))) := by
  rw [delete, InPlace.on_ofExcept_bind, Transaction.delete]
  cases target db model conditions with
  | error fault => rfl
  | ok t =>
    refine (on_onBuffer_stage_bind tx _ _ _).trans ?_
    show _ = pure (InPlace.settle tx (Except.map _ (tx.buffer.stage _ _ >>= _)))
    cases tx.buffer.stage (.delete t.table t.key) t.key <;> rfl

theorem on_stageUpdate (t : Target) (current next : Item) :
    (stageUpdate t current next).on tx =
      pure (InPlace.settle tx (tx.stageUpdate t current next)) := by
  rw [stageUpdate, InPlace.on_ofExcept_bind, Transaction.stageUpdate]
  cases Database.patchBetween current next with
  | error fault => rfl
  | ok change =>
    refine (on_onBuffer_stage_bind tx _ _ _).trans ?_
    show _ = pure (InPlace.settle tx (tx.buffer.stage _ _ >>= _))
    cases tx.buffer.stage (.update t.table t.key change.expression change.attributes) t.key <;> rfl

theorem on_changePut (t : Target) (item patch : Item) :
    (changePut db model t item patch).on tx =
      pure (InPlace.settle tx (tx.changePut db model t item patch)) := by
  rw [changePut, Transaction.changePut]
  split
  · refine (on_onBuffer_stage_bind tx _ _ _).trans ?_
    show _ = pure (InPlace.settle tx (tx.buffer.stage _ _ >>= _))
    cases tx.buffer.stage (.put t.table (db.patchedRow model t.keys item patch)) t.key <;> rfl
  · rfl

/-- A row that is read to be changed is staged with its change, or nothing is. -/
theorem on_changeStored (conditions : List Condition) (t : Target) (patch : Item) :
    (changeStored db model conditions t patch).on tx =
      InPlace.settle tx <$> ExceptT.run (match Fields.get? tx.updates t.id with
        | some staged => Run.ofExcept (tx.extendUpdate db model t staged patch)
        | none => do
          match ← db.findOne { model, conditions } with
          | none => pure (none, tx)
          | some current =>
            Run.ofExcept (tx.stageUpdate t current (db.patchedRow model t.keys current patch))) := by
  show InPlace.on (match Fields.get? tx.updates t.id with
    | some staged => _
    | none => _) tx = _
  cases Fields.get? tx.updates t.id with
  | some staged =>
    show InPlace.on (ite (matchesAll t.conditions staged.next = true) _ _) tx =
      pure (InPlace.settle tx (ite (matchesAll t.conditions staged.next = true) _ _))
    split
    · exact on_stageUpdate tx t _ _
    · rfl
  | none =>
    refine (InPlace.on_ofRun_bind _ _ tx).trans ?_
    show _ = InPlace.settle tx <$> ((db.findOne { model, conditions }).run >>= ExceptT.bindCont _)
    rw [map_bind]
    refine congrArg ((db.findOne { model, conditions }).run >>= ·) (funext fun found => ?_)
    cases found with
    | error fault => rfl
    | ok row? =>
      cases row? with
      | none => rfl
      | some current => exact on_stageUpdate tx t _ _

theorem on_update (conditions : List Condition) (patch : Item) :
    (update db model conditions patch).on tx =
      InPlace.settle tx <$> (tx.update db model conditions patch).run := by
  rw [update, InPlace.on_ofExcept_bind, Transaction.update]
  cases target db model conditions with
  | error fault => rfl
  | ok t =>
    refine (on_onBuffer_pending_bind tx t.table t.key _).trans ?_
    show _ = InPlace.settle tx <$> ExceptT.run (Run.ofExcept (tx.buffer.pending t.table t.key) >>= _)
    cases tx.buffer.pending t.table t.key with
    | error fault => rfl
    | ok write? =>
      cases write? with
      | none => exact on_changeStored db tx model conditions t patch
      | some w =>
        cases w with
        | put table item => exact on_changePut db tx model t item patch
        | update _ _ _ _ => exact on_changeStored db tx model conditions t patch
        | delete _ _ => rfl

end Transaction.InPlace

end KeyedQuery
