import KeyedQuery.Plan.Rows
import KeyedQuery.Proofs.Conduct

/-!
# Properties along a plan

Carrying a plan out means to collect rows, to get batches and to count, one after another. A property of
dialogues composes (`Run.Composes`) if parts that have it make a whole that has it. What such a property
says of a plan follows from what it says of the requests that the plan is carried out by, joins included
(`Run.Composes.rows`, `Run.Composes.countRows`).
-/

namespace KeyedQuery

namespace Run

/-- Parts with the property make a whole with the property, also if a plan counts something in between. -/
structure Composes (C : (α : Type) → Run α → Prop) : Prop where
  pure : ∀ {α : Type} (a : α), C α (Pure.pure a)
  bind : ∀ {α β : Type} {p : Run α} {f : α → Run β}, C α p → (∀ a, C β (f a)) → C β (p >>= f)
  count : ∀ c ∈ [Counter.rowsFiltered, .finds, .counts], ∀ n, C Unit (Run.count c n)

theorem Asks.composes (φ : Request → Prop) : Composes fun _ p => Asks φ p :=
  ⟨.pure, .bind, fun c _ n => .count c n⟩

theorem StaysIn.composes (φ : Request → Prop) (E : Fault → Prop) : Composes fun _ p => StaysIn φ E p :=
  ⟨.pure, .bind, fun c _ n => .count c n⟩

namespace Composes

variable {C : (α : Type) → Run α → Prop} {policy : FetchPolicy} {p : Plan} {j : ResolvedJoin}

theorem mapM (hC : Composes C) {α β : Type} {f : α → Run β} : ∀ {xs : List α},
    (∀ x ∈ xs, C β (f x)) → C (List β) (xs.mapM f)
  | [], _ => hC.pure []
  | x :: xs, h => by
    rw [List.mapM_cons]
    refine hC.bind (h x List.mem_cons_self) fun y => hC.bind ?_ fun ys => hC.pure (y :: ys)
    exact hC.mapM fun z hz => h z (List.mem_cons_of_mem x hz)

/-! ## Joins -/

theorem collectEach (hC : Composes C) {limit : Option Nat} {requests : List PageRequest}
    (h : ∀ q ∈ requests, C _ (policy.collect q limit)) :
    C _ (ResolvedJoin.collectEach policy limit requests) :=
  hC.bind (hC.mapM h) fun _ => hC.pure _

/-- The target rows of values are reached by a batch get, by a query for each value, or by scans. -/
theorem fetch_join (hC : Composes C) {values : List Value}
    (hbatch : C _ (policy.retry.batchGet j.table (values.map fun v => [(j.foreignField, v)])))
    (hquery : ∀ index, ∀ v ∈ values, C _ (policy.collect (j.valueQuery index v) (some j.cap)))
    (hscan : ∀ chunk ∈ chunksOf maxBatchKeys values, C _ (policy.collect (j.valuesScan chunk) none))
    (strategy : Strategy) : C _ (j.fetch policy values strategy) := by
  cases strategy with
  | batchGet => exact hbatch
  | primaryKeyQuery => exact hC.collectEach (List.forall_mem_map.mpr (hquery none))
  | secondaryIndexQuery index => exact hC.collectEach (List.forall_mem_map.mpr (hquery (some index)))
  | multiQuery index field => exact hC.collectEach (List.forall_mem_map.mpr (hquery (some index)))
  | scan => exact hC.collectEach (List.forall_mem_map.mpr hscan)

theorem attach (hC : Composes C) {rows : List Item}
    (hfetch : ∀ strategy, C _ (j.fetch policy (distinctFieldValues j.localField rows) strategy))
    (strategy : Strategy) : C _ (j.attach policy strategy rows) := by
  unfold ResolvedJoin.attach
  dsimp only
  split
  · exact hC.bind (hC.pure []) fun _ => hC.pure _
  · exact hC.bind (hfetch _) fun _ => hC.pure _

/-! ## Plans -/

theorem collectInTurn (hC : Composes C) {limit : Option Nat} : ∀ {requests : List PageRequest},
    (∀ q ∈ requests, ∀ k, C _ (policy.collect q (limit.map fun n => n - k))) →
      ∀ collected, C _ (Plan.collectInTurn policy limit collected requests)
  | [], _, collected => hC.pure collected
  | q :: requests, h, collected => by
    rw [Plan.collectInTurn]
    split
    · exact hC.pure collected
    · refine hC.bind (h q List.mem_cons_self _) fun more => ?_
      exact hC.collectInTurn (fun r hr => h r (List.mem_cons_of_mem q hr)) _

theorem joinRows (hC : Composes C) : ∀ {joins : List (ResolvedJoin × Strategy)},
    (∀ join ∈ joins, ∀ rows, C _ (join.1.attach policy join.2 rows)) →
      ∀ rows, C _ (Plan.joinRows policy joins rows)
  | [], _, rows => hC.pure rows
  | join :: joins, h, rows => by
    refine hC.bind (h join List.mem_cons_self rows) fun joined => ?_
    exact hC.joinRows (fun other hother => h other (List.mem_cons_of_mem join hother)) joined

/-- A plan is carried out by fetching rows and attaching partners to them. -/
theorem rows (hC : Composes C) (hfetch : C _ (p.fetch policy p.directives.fetchLimit))
    (hattach : ∀ j ∈ p.joins, ∀ strategy rows, C _ (j.attach policy strategy rows)) :
    C _ (p.rows policy) := by
  have hjoin : ∀ rows, C _ (Plan.joinRows policy (p.joins.zip p.directives.joinStrategies) rows) :=
    hC.joinRows fun join hjoin rows => hattach join.1 (List.of_mem_zip hjoin).1 join.2 rows
  have hend : ∀ rows, C _ (do
      let joined ← Plan.joinRows policy (p.joins.zip p.directives.joinStrategies) rows
      Run.count .finds 1
      Pure.pure joined) := fun rows =>
    hC.bind (hjoin rows) fun _ => hC.bind (hC.count _ (by simp) 1) fun _ => hC.pure _
  unfold Plan.rows
  refine hC.bind hfetch fun fetched => ?_
  dsimp only
  split
  · exact hC.bind (hC.count _ (by simp) _) fun _ => hend _
  · exact hend _

/-- The rows of a plan are counted in the store, or else fetched. -/
theorem countRows (hC : Composes C)
    (hcount : ∀ e, p.countRequest? = some e → C _ (Run.ofExcept e >>= policy.count))
    (hfetch : C _ (p.fetch policy none)) : C _ (p.countRows policy) := by
  have hend : ∀ total : Nat, C _ (do Run.count .counts 1; Pure.pure total) := fun total =>
    hC.bind (hC.count _ (by simp) 1) fun _ => hC.pure total
  unfold Plan.countRows
  dsimp only
  cases hrequest : p.countRequest? with
  | some e =>
    dsimp only
    rw [← bind_assoc]
    exact hC.bind (hcount e hrequest) hend
  | none => exact hC.bind hfetch fun _ => hC.bind (hC.pure _) hend

end Composes

end Run

end KeyedQuery
