import KeyedQuery.Loader.Fetch
import KeyedQuery.Proofs.Parties
import KeyedQuery.Proofs.Traffic.Books

/-!
# Books of operations

Reads and writes by model, those of a transaction, its commit and the batches of a loader leave balanced books
behind, however they end. Most of them settle: what they send is counted before it is sent, and an accepted
write behind its answer (`Database.settles_write`). A commit and a batch catch the fault of what they send, so
for them it is said of all ends alike (`Transaction.balances_commit`, `Database.balances_loadBatch`).
-/

namespace KeyedQuery

open Run (KeepsBooks Settles)

/-! ## Plans -/

theorem Run.Settles.composes : Run.Composes fun _ p => Settles p where
  pure := .pure
  bind := .bind
  count c hc n := .count (by simp at hc; rcases hc with rfl | rfl | rfl <;> rfl) n

theorem ResolvedJoin.settles_attach (policy : FetchPolicy) (j : ResolvedJoin) (strategy : Strategy)
    (rows : List Item) : Settles (j.attach policy strategy rows) :=
  Settles.composes.attach (Settles.composes.fetch_join (policy.retry.settles_batchGet _ _)
    (fun _ _ _ => policy.settles_collect _ _) fun _ _ => policy.settles_collect _ _) strategy

namespace Plan

variable (p : Plan) (policy : FetchPolicy)

theorem settles_fetch (limit : Option Nat) : Settles (p.fetch policy limit) := by
  unfold fetch
  split
  · exact .ofExcept_bind fun _ => policy.settles_collect _ _
  · exact .ofExcept_bind fun _ => policy.settles_collect _ _
  · exact .ofExcept_bind fun _ =>
      Settles.composes.collectInTurn (fun _ _ _ => policy.settles_collect _ _) []
  · exact .ofExcept_bind fun _ => (policy.retry.settles_batchGet _ _).bind fun _ => .pure _
  · exact policy.settles_collect _ _

theorem settles_rows : Settles (p.rows policy) :=
  Settles.composes.rows (p.settles_fetch policy _)
    fun j _ strategy rows => j.settles_attach policy strategy rows

theorem settles_countRows : Settles (p.countRows policy) :=
  Settles.composes.countRows (fun _ _ => .ofExcept_bind fun q => policy.settles_count q)
    (p.settles_fetch policy none)

end Plan

/-! ## Databases -/

namespace Database

variable (db : Database)

theorem settles_findMany (q : FindQuery) : Settles (db.findMany q) :=
  .ofExcept_bind fun p => p.settles_rows _

theorem settles_findOne (q : FindQuery) : Settles (db.findOne q) :=
  (db.settles_findMany _).bind fun _ => .pure _

theorem settles_count (q : FindQuery) : Settles (db.count q) :=
  .ofExcept_bind fun p => p.settles_countRows _

/-- A write of a single row is counted when it is accepted. -/
theorem settles_write {r : Request} (hr : r.kind = .write) : Settles (db.write r) := by
  have haccepted : ∀ a : r.Answer, Exchange.accepted? ⟨r, .ok a⟩ = some .writes := fun a =>
    Exchange.accepted?_eq_some_iff.mpr (.inl ⟨rfl, by simp [Exchange.isAccepted, Exchange.isOk, hr]⟩)
  have hleftover : ∀ a : r.Answer, Exchange.leftover? ⟨r, .ok a⟩ = none := fun a => by
    cases r <;> first | rfl | cases hr
  refine ((db.config.retry.keepsBooks_request r).imp (fun _ h => h.ready _) fun _ _ h => h).bind
    fun a => ?_
  exact KeepsBooks.bind (Q := fun acts _ => Act.Settled acts)
    (.count fun _ h => h.count (haccepted a) (hleftover a)) fun _ => .pure fun _ h => h

theorem settles_create (model : String) (data : Item) : Settles (db.create model data) :=
  .ofExcept_bind fun _ => (db.settles_write rfl).bind fun _ => .pure _

theorem settles_update (model : String) (conditions : List Condition) (patch : Item) :
    Settles (db.update model conditions patch) := by
  refine (db.settles_findOne _).bind fun found => ?_
  cases found with
  | none => exact .pure _
  | some current =>
    exact .ofExcept_bind fun table => .ofExcept_bind fun keys => .ofExcept_bind fun key =>
      .ofExcept_bind fun change => (db.settles_write rfl).bind fun _ => .pure _

theorem settles_deleteRows (model table : String) (keys : KeySchema) :
    ∀ rows, Settles (db.deleteRows model table keys rows)
  | [] => .pure _
  | _ :: rows => .ofExcept_bind fun _ => (db.settles_write rfl).bind fun _ =>
      settles_deleteRows model table keys rows

theorem settles_delete (model : String) (conditions : List Condition) :
    Settles (db.delete model conditions) :=
  (db.settles_findMany _).bind fun _ => .ofExcept_bind fun _ => .ofExcept_bind fun _ =>
    (db.settles_deleteRows _ _ _ _).bind fun _ => .pure _

end Database

/-! ## Transactions -/

namespace Transaction

variable (db : Database) (tx : Transaction)

theorem settles_findOne (q : FindQuery) : Settles (tx.findOne db q) := by
  refine .ofExcept_bind fun table => .ofExcept_bind fun conditions => .ofExcept_bind fun own => ?_
  cases own with
  | some row => exact .pure _
  | none =>
    refine (db.settles_findOne q).bind fun found => ?_
    cases found with
    | none => exact .pure _
    | some row => exact .ofExcept_bind fun keys => .ofExcept_bind fun key => .ofExcept _

theorem settles_update (model : String) (conditions : List Condition) (patch : Item) :
    Settles (tx.update db model conditions patch) := by
  rw [update_eq]
  refine .ofExcept_bind fun t => .ofExcept_bind fun own => ?_
  cases own with
  | some result => exact .pure _
  | none => exact (db.settles_findOne _).bind fun found => .ofExcept _

theorem settles_call (call : Call) : Settles (call.run db tx) := by
  cases call with
  | create model data => exact .ofExcept _
  | update model conditions patch =>
    exact (tx.settles_update db model conditions patch).bind fun _ => .pure _
  | delete model conditions => exact .ofExcept _

/-- An accepted transaction is counted behind its answer, and a fault is caught with balanced books. -/
theorem balances_commit (token : String) {acts : List Act} (h : Act.Settled acts) :
    (tx.commit db token).run.Balances acts := by
  have haccepted : ∀ a, Exchange.accepted? ⟨.transact tx.buffer.writes token, .ok a⟩ =
      some .transactionsCommitted := fun _ => rfl
  have hcommit : (tx.buffer.commit db.config.retry token).Balances acts := by
    unfold WriteBuffer.commit
    split
    · exact h.balanced
    · split
      · exact h.balanced
      · refine Dialogue.Ends.bind (db.config.retry.keepsBooks_request _ acts (h.ready _))
          fun acts result hresult => ?_
        cases result with
        | ok a => exact (Act.Sent.count hresult (haccepted a) rfl).balanced
        | error fault => exact hresult
  exact hcommit.map _

end Transaction

/-! ## Batches of loads -/

/-- A batch is counted behind its rows or its fault, and is no traffic. -/
theorem Database.balances_loadBatch (db : Database) (batch : LoadBatch) {acts : List Act}
    (h : Act.Settled acts) : (db.loadBatch batch).Balances acts := by
  have hfetch : Settles (db.fetchBatch batch) := .ofExcept_bind fun _ => .ofExcept_bind fun _ =>
    (db.config.retry.settles_batchGet _ _).bind fun _ => .pure _
  exact Dialogue.Ends.bind (hfetch.balances h) fun acts result hacts => hacts.count_other rfl 1

/-! ## Operations -/

theorem Operation.balances_perform (db : Database) (tx : Transaction) (op : Operation) {acts : List Act}
    (h : Act.Settled acts) : (op.perform db tx).Balances acts := by
  cases op with
  | create model data => exact ((db.settles_create model data).balances h).map _
  | update model conditions patch =>
    exact ((db.settles_update model conditions patch).balances h).map _
  | delete model conditions => exact ((db.settles_delete model conditions).balances h).map _
  | find q => exact ((db.settles_findMany q).balances h).map _
  | look q => exact ((tx.settles_findOne db q).balances h).map _
  | stage call =>
    refine Dialogue.Ends.bind ((tx.settles_call db call).balances h) fun acts result hacts => ?_
    cases result with
    | ok next => exact hacts
    | error fault => exact hacts
  | commit token => exact (tx.balances_commit db token h).map _
  | abort => exact h.balanced

end KeyedQuery
