import KeyedQuery.Proofs.Fields
import KeyedQuery.Proofs.Loader.Gathering
import Mathlib.Data.List.Nodup
import Mathlib.Data.List.Perm.Basic

/-!
# Batches of a loader

What each operation of a loader does to its batches and outcomes. Registering changes the pending
batch of one model and adds one waiter (`Loader.register_waiters_perm`). Dispatching moves a batch,
up to order none is lost or gained (`Loader.dispatch_batches_perm`). Completing takes one batch away
(`Loader.complete_batches_perm`) and gives its waiters their outcomes (`Loader.outcome?_complete`).
-/

namespace KeyedQuery

/-- The loads that a batch holds. -/
def LoadBatch.waiters (batch : LoadBatch) : List Nat :=
  batch.entries.flatMap LoadEntry.waiters

/-- The batch holds registrations of its model, some of the given ones in their order. -/
def LoadBatch.Gathers (rs : List Registration) (batch : LoadBatch) : Prop :=
  ∃ own : List Registration, own ≠ [] ∧ own.Sublist rs ∧ (∀ r ∈ own, r.model = batch.model) ∧
    batch.entries = LoadEntry.gather own

/-- Where a load is that has registered. -/
inductive Whereabouts where
  /-- In a batch that waits to be dispatched. -/
  | pending (batch : LoadBatch)
  /-- In a batch that has been dispatched and not yet completed. -/
  | inFlight (batch : LoadBatch)
  /-- At its end. -/
  | resolved (outcome : LoadOutcome)

theorem LoadBatch.Gathers.mono {rs rs' : List Registration} {batch : LoadBatch}
    (h : batch.Gathers rs) (hsub : rs.Sublist rs') : batch.Gathers rs' := by
  obtain ⟨own, hne, hown, hmodel, hentries⟩ := h
  exact ⟨own, hne, hown.trans hsub, hmodel, hentries⟩

theorem LoadBatch.Gathers.waiters_perm {rs : List Registration} {batch : LoadBatch}
    (h : batch.Gathers rs) : ∃ own : List Registration, own ≠ [] ∧ own.Sublist rs ∧
      (∀ r ∈ own, r.model = batch.model) ∧ batch.waiters.Perm (own.map Registration.waiter) := by
  obtain ⟨own, hne, hown, hmodel, hentries⟩ := h
  exact ⟨own, hne, hown, hmodel, by
    rw [LoadBatch.waiters, hentries]
    exact LoadEntry.waiters_gather_perm own⟩

namespace Loader

variable {l : Loader} {model : String} {waiter : Nat} {key : Item} {batch : LoadBatch}
  {entries : List LoadEntry} {result : Except Fault (Fields Item)}

/-- What is pending, model by model. -/
def pendingBatches (l : Loader) : List LoadBatch :=
  l.pending.map fun field => ⟨field.1, field.2⟩

/-- The batches that have not been completed. -/
def batches (l : Loader) : List LoadBatch :=
  l.pendingBatches ++ l.inFlight

/-- The pending batches of the other models. -/
def othersPending (l : Loader) (model : String) : List LoadBatch :=
  (Fields.erase l.pending model).map fun field => ⟨field.1, field.2⟩

/-- Dispatch a model; if nothing is pending for it, nothing happens. -/
def dispatch (l : Loader) (model : String) : Loader :=
  ((l.dispatch? model).map Prod.snd).getD l

/-- A load is at a place. -/
def Holds (l : Loader) (waiter : Nat) : Whereabouts → Prop
  | .pending batch => batch ∈ l.pendingBatches ∧ waiter ∈ batch.waiters
  | .inFlight batch => batch ∈ l.inFlight ∧ waiter ∈ batch.waiters
  | .resolved outcome => (waiter, outcome) ∈ l.outcomes

/-! ## Registering -/

theorem pendingBatches_perm (ho : l.pending.Ordered)
    (hp : Fields.get? l.pending model = some entries) :
    l.pendingBatches.Perm (⟨model, entries⟩ :: l.othersPending model) :=
  (ho.perm_of_get? hp).map _

theorem model_ne_of_mem_othersPending (h : batch ∈ l.othersPending model) :
    batch.model ≠ model := by
  obtain ⟨field, hfield, rfl⟩ := List.mem_map.mp h
  simpa using (List.mem_filter.mp hfield).2

theorem othersPending_subset : l.othersPending model ⊆ l.pendingBatches :=
  List.map_subset _ List.filter_sublist.subset

theorem register_pendingBatches_perm (ho : l.pending.Ordered) :
    (l.register model waiter key).pendingBatches.Perm
      (⟨model, LoadEntry.addWaiter waiter key (l.pendingFor model)⟩ :: l.othersPending model) :=
  (ho.insert_perm model _).map _

/-- One waiter more is pending. -/
theorem register_waiters_perm (ho : l.pending.Ordered) :
    ((l.register model waiter key).pendingBatches.flatMap LoadBatch.waiters).Perm
      (l.pendingBatches.flatMap LoadBatch.waiters ++ [waiter]) := by
  have hbefore : (l.pendingBatches.flatMap LoadBatch.waiters).Perm
      ((l.pendingFor model).flatMap LoadEntry.waiters ++
        (l.othersPending model).flatMap LoadBatch.waiters) := by
    cases hp : Fields.get? l.pending model with
    | none =>
      rw [pendingFor, hp, othersPending, Fields.erase_of_get?_eq_none hp]
      exact .refl _
    | some entries =>
      rw [pendingFor, hp]
      exact (pendingBatches_perm ho hp).flatMap_right _
  have hafter : ((l.register model waiter key).pendingBatches.flatMap LoadBatch.waiters).Perm
      ((l.pendingFor model).flatMap LoadEntry.waiters ++ [waiter] ++
        (l.othersPending model).flatMap LoadBatch.waiters) :=
    ((register_pendingBatches_perm ho).flatMap_right _).trans
      ((LoadEntry.addWaiter_waiters_perm _ _ _).append_right _)
  exact hafter.trans ((perm_append_right_comm _ _ _).trans (hbefore.symm.append_right [waiter]))

/-- One waiter more is held by the batches. -/
theorem register_batches_perm (ho : l.pending.Ordered) :
    ((l.register model waiter key).batches.flatMap LoadBatch.waiters).Perm
      (l.batches.flatMap LoadBatch.waiters ++ [waiter]) := by
  rw [batches, batches, List.flatMap_append, List.flatMap_append]
  exact ((register_waiters_perm ho).append_right _).trans (perm_append_right_comm _ _ _)

/-! ## Dispatching -/

theorem dispatch_cases (l : Loader) (model : String) :
    (Fields.get? l.pending model = none ∧ l.dispatch model = l) ∨
      ∃ entries, Fields.get? l.pending model = some entries ∧
        l.dispatch model = { l with
          pending := Fields.erase l.pending model
          inFlight := l.inFlight ++ [⟨model, entries⟩] } := by
  unfold dispatch dispatch?
  cases Fields.get? l.pending model with
  | none => exact .inl ⟨rfl, rfl⟩
  | some entries => exact .inr ⟨entries, rfl, rfl⟩

theorem dispatch_of_dispatch?_eq_none (h : l.dispatch? model = none) : l.dispatch model = l := by
  rw [dispatch, h]
  rfl

theorem dispatch_of_dispatch?_eq_some {next : Loader}
    (h : l.dispatch? model = some (batch, next)) :
    next = l.dispatch model ∧ next.inFlight = l.inFlight ++ [batch] := by
  refine ⟨by rw [dispatch, h]; rfl, ?_⟩
  obtain ⟨entries, -, heq⟩ := Option.map_eq_some_iff.mp h
  obtain ⟨rfl, rfl⟩ := Prod.mk.inj heq
  rfl

theorem inFlight_subset_dispatch (l : Loader) (model : String) :
    l.inFlight ⊆ (l.dispatch model).inFlight := by
  rcases l.dispatch_cases model with ⟨-, h⟩ | ⟨entries, -, h⟩ <;> rw [h]
  · exact List.Subset.refl _
  · exact List.subset_append_left _ _

@[simp]
theorem dispatch_outcomes (l : Loader) (model : String) :
    (l.dispatch model).outcomes = l.outcomes := by
  rcases l.dispatch_cases model with ⟨-, h⟩ | ⟨entries, -, h⟩ <;> rw [h]

theorem dispatch_ordered (ho : l.pending.Ordered) : (l.dispatch model).pending.Ordered := by
  rcases l.dispatch_cases model with ⟨-, h⟩ | ⟨entries, -, h⟩ <;> rw [h]
  · exact ho
  · exact ho.erase model

/-- Only the batches of other models are still pending. -/
theorem dispatch_pendingBatches (l : Loader) (model : String) :
    (l.dispatch model).pendingBatches = l.othersPending model := by
  rcases l.dispatch_cases model with ⟨hp, h⟩ | ⟨entries, -, h⟩ <;> rw [h]
  · rw [othersPending, Fields.erase_of_get?_eq_none hp]
    rfl
  · rfl

/-- A batch that is dispatched is in flight instead of pending. -/
theorem dispatch_batches_perm (ho : l.pending.Ordered) :
    (l.dispatch model).batches.Perm l.batches := by
  rcases l.dispatch_cases model with ⟨-, h⟩ | ⟨entries, hp, h⟩
  · rw [h]
  · have hmoved : (l.dispatch model).batches =
        l.othersPending model ++ (l.inFlight ++ [⟨model, entries⟩]) := by
      rw [h]
      rfl
    rw [hmoved, ← List.append_assoc]
    exact List.perm_append_comm.trans ((pendingBatches_perm ho hp).symm.append_right _)

/-! ## Completing -/

theorem complete_batches_perm (h : batch ∈ l.inFlight) :
    l.batches.Perm (batch :: (l.complete batch result).batches) := by
  have hrest : (l.complete batch result).batches = l.pendingBatches ++ l.inFlight.erase batch := rfl
  rw [hrest]
  exact ((List.perm_cons_erase h).append_left _).trans List.perm_middle

theorem outcomesOf_waiters (batch : LoadBatch) (result : Except Fault (Fields Item)) :
    (outcomesOf batch result).map Prod.fst = batch.waiters := by
  rw [outcomesOf, List.map_flatMap, LoadBatch.waiters]
  simp only [List.map_map, Function.comp_def, List.map_id']

theorem outcome?_eq_none_iff : l.outcome? waiter = none ↔ waiter ∉ l.outcomes.map Prod.fst := by
  rw [outcome?, List.lookup_eq_none_iff, List.mem_map]
  constructor
  · rintro h ⟨p, hp, rfl⟩
    exact absurd (h p hp) (by simp)
  · intro h p hp
    exact bne_iff_ne.mpr fun heq => h ⟨p, hp, heq.symm⟩

/-- Of outcomes of different loads, each is what is known of its load. -/
theorem lookup_of_mem {pairs : List (Nat × LoadOutcome)} {outcome : LoadOutcome}
    (hn : (pairs.map Prod.fst).Nodup) (h : (waiter, outcome) ∈ pairs) :
    pairs.lookup waiter = some outcome := by
  cases hl : pairs.lookup waiter with
  | none =>
    exact absurd (List.lookup_eq_none_iff.mp hl _ h) (by simp)
  | some other =>
    obtain ⟨before, after, rfl, -⟩ := List.lookup_eq_some_iff.mp hl
    have hmem : (waiter, other) ∈ before ++ (waiter, other) :: after :=
      List.mem_append_right _ List.mem_cons_self
    obtain rfl := (Prod.mk.inj (List.inj_on_of_nodup_map hn h hmem rfl)).2
    rfl

@[simp]
theorem outcome?_dispatch (l : Loader) (model : String) (waiter : Nat) :
    (l.dispatch model).outcome? waiter = l.outcome? waiter := by
  rw [outcome?, outcome?, dispatch_outcomes]

theorem outcome?_refuse_of_ne {other : Nat} {fault : Fault} (h : waiter ≠ other) :
    (l.refuse other fault).outcome? waiter = l.outcome? waiter := by
  rw [outcome?, refuse, List.lookup_append, List.lookup_cons, beq_false_of_ne h]
  exact Option.or_none

theorem outcome?_complete_of_notMem (h : waiter ∉ batch.waiters) :
    (l.complete batch result).outcome? waiter = l.outcome? waiter := by
  have hnone : (outcomesOf batch result).lookup waiter = none := by
    refine List.lookup_eq_none_iff.mpr fun p hp => bne_iff_ne.mpr fun heq => h ?_
    rw [← outcomesOf_waiters batch result, heq]
    exact List.mem_map_of_mem hp
  have happend : (l.complete batch result).outcome? waiter =
      (l.outcomes ++ outcomesOf batch result).lookup waiter := rfl
  rw [happend, List.lookup_append, hnone, Option.or_none]
  rfl

/-- A completed batch gives all waiters of a key the same outcome. -/
theorem outcome?_complete (hn : batch.waiters.Nodup) {e : LoadEntry} (he : e ∈ batch.entries)
    (hw : waiter ∈ e.waiters) (hnone : l.outcome? waiter = none) :
    (l.complete batch result).outcome? waiter =
      some (result.map fun found => Fields.get? found e.id) := by
  have hmem : (waiter, result.map fun found => Fields.get? found e.id) ∈ outcomesOf batch result :=
    List.mem_flatMap.mpr ⟨e, he, List.mem_map_of_mem hw⟩
  have happend : (l.complete batch result).outcome? waiter =
      (l.outcomes ++ outcomesOf batch result).lookup waiter := rfl
  rw [outcome?] at hnone
  rw [happend, List.lookup_append, hnone, Option.none_or]
  exact lookup_of_mem (by rwa [outcomesOf_waiters]) hmem

/-! ## Whereabouts -/

/-- Everything that a loader holds, with its place. -/
def places (l : Loader) : List (Nat × Whereabouts) :=
  l.pendingBatches.flatMap (fun batch => batch.waiters.map (·, .pending batch)) ++
    l.inFlight.flatMap (fun batch => batch.waiters.map (·, .inFlight batch)) ++
    l.outcomes.map fun p => (p.1, .resolved p.2)

theorem mem_places {place : Whereabouts} : (waiter, place) ∈ l.places ↔ l.Holds waiter place := by
  cases place <;> simp [places, Holds]

theorem places_waiters (l : Loader) : l.places.map Prod.fst =
    l.batches.flatMap LoadBatch.waiters ++ l.outcomes.map Prod.fst := by
  simp [places, batches, List.map_flatMap, Function.comp_def]

/-- If nothing occurs twice, every load is at one place. -/
theorem existsUnique_holds
    (hn : (l.batches.flatMap LoadBatch.waiters ++ l.outcomes.map Prod.fst).Nodup)
    (hw : waiter ∈ l.batches.flatMap LoadBatch.waiters ++ l.outcomes.map Prod.fst) :
    ∃! place, l.Holds waiter place := by
  rw [← places_waiters] at hn hw
  obtain ⟨⟨_, place⟩, hmem, rfl⟩ := List.mem_map.mp hw
  refine ⟨place, mem_places.mp hmem, fun other hother => ?_⟩
  exact (Prod.mk.inj (List.inj_on_of_nodup_map hn (mem_places.mpr hother) hmem rfl)).2

end Loader

end KeyedQuery
