import KeyedQuery.Proofs.Loader.Batches
import Mathlib.Logic.Relation

/-!
# Courses of a loader

Loads, ticks, flushes and completions of one loader come in any order: `Course.Step` is one of
them, for any number of models, and `Course.Reachable` any number of steps from an empty loader. A
course keeps, next to the loader, who has registered, who has been refused and whose own dispatch
has taken place.

Nobody is lost or held twice: the loads that batches and outcomes name are the loads that have come
(`Course.Sound.accounted`). `Course.Reachable.orderly` puts together what follows for every course.
-/

namespace KeyedQuery

/-- A loader and what has happened to it. -/
structure Course where
  /-- The loader. -/
  loader : Loader := {}
  /-- The loads that have registered, in the order in which they came. -/
  registered : List Registration := []
  /-- The loads that ended before they could register. -/
  refused : List Nat := []
  /-- The loads whose own dispatch has taken place. -/
  ticked : List Nat := []

namespace Course

open scoped List

variable {c next : Course} {r : Registration} {waiter : Nat} {fault : Fault} {model : String}
  {batch : LoadBatch} {result : Except Fault (Fields Item)}

/-- The loads that have come. -/
def known (c : Course) : List Nat :=
  c.registered.map Registration.waiter ++ c.refused

/-- A load registers its key. -/
def load (c : Course) (r : Registration) : Course :=
  { c with
    loader := c.loader.register r.model r.waiter r.key
    registered := c.registered ++ [r] }

/-- A load ends with a fault instead. -/
def refuse (c : Course) (waiter : Nat) (fault : Fault) : Course :=
  { c with
    loader := c.loader.refuse waiter fault
    refused := c.refused ++ [waiter] }

/-- Somebody has a model dispatched. -/
def flush (c : Course) (model : String) : Course :=
  { c with loader := c.loader.dispatch model }

/-- The tick of a load has passed, and it dispatches its model. -/
def tick (c : Course) (r : Registration) : Course :=
  { c.flush r.model with ticked := c.ticked ++ [r.waiter] }

/-- A batch comes back from the store. -/
def complete (c : Course) (batch : LoadBatch) (result : Except Fault (Fields Item)) : Course :=
  { c with loader := c.loader.complete batch result }

/-- What can happen next. -/
inductive Step (c : Course) : Course → Prop where
  | load (r : Registration) (hnew : r.waiter ∉ c.known) : Step c (c.load r)
  | refuse (waiter : Nat) (fault : Fault) (hnew : waiter ∉ c.known) : Step c (c.refuse waiter fault)
  | tick (r : Registration) (hr : r ∈ c.registered) : Step c (c.tick r)
  | flush (model : String) : Step c (c.flush model)
  | complete (batch : LoadBatch) (result : Except Fault (Fields Item))
      (hbatch : batch ∈ c.loader.inFlight) : Step c (c.complete batch result)

/-- A course that can come about. -/
def Reachable (c : Course) : Prop :=
  Relation.ReflTransGen Step {} c

/-! ## What every step keeps -/

/-- Every load that has come is held by one batch or has one outcome. -/
structure Sound (c : Course) : Prop where
  ordered : c.loader.pending.Ordered
  accounted : (c.loader.batches.flatMap LoadBatch.waiters ++ c.loader.outcomes.map Prod.fst).Perm
    c.known
  nodup : c.known.Nodup
  gathers : ∀ batch ∈ c.loader.batches, batch.Gathers c.registered
  ticked : ∀ waiter ∈ c.ticked,
    waiter ∈ c.known ∧ waiter ∉ c.loader.pendingBatches.flatMap LoadBatch.waiters

theorem known_load_perm (c : Course) (r : Registration) :
    (c.load r).known.Perm (c.known ++ [r.waiter]) := by
  have hknown : (c.load r).known =
      c.registered.map Registration.waiter ++ [r.waiter] ++ c.refused := by
    rw [known, load, List.map_append, List.map_singleton]
  exact hknown ▸ perm_append_right_comm _ _ _

theorem known_refuse (c : Course) (waiter : Nat) (fault : Fault) :
    (c.refuse waiter fault).known = c.known ++ [waiter] :=
  (List.append_assoc _ _ _).symm

theorem nodup_known_concat (h : c.known.Nodup) (hnew : waiter ∉ c.known) :
    (c.known ++ [waiter]).Nodup :=
  List.nodup_append_comm.mp (List.nodup_cons.mpr ⟨hnew, h⟩)

theorem sound_empty : Sound {} where
  ordered := Fields.ordered_nil
  accounted := .refl _
  nodup := .nil
  gathers := by
    intro batch h
    cases h
  ticked := by
    intro waiter h
    cases h

namespace Sound

/-- The batch of a model gathers a load that comes. -/
theorem gathers_addWaiter (h : Sound c) (r : Registration) :
    LoadBatch.Gathers (c.registered ++ [r])
      ⟨r.model, LoadEntry.addWaiter r.waiter r.key (c.loader.pendingFor r.model)⟩ := by
  cases hp : Fields.get? c.loader.pending r.model with
  | none =>
    rw [Loader.pendingFor, hp]
    exact ⟨[r], List.cons_ne_nil _ _, List.sublist_append_right _ _, by simp,
      LoadEntry.gather_concat [] r ▸ rfl⟩
  | some entries =>
    have hmem : ⟨r.model, entries⟩ ∈ c.loader.batches :=
      List.mem_append_left _
        ((Loader.pendingBatches_perm h.ordered hp).symm.subset List.mem_cons_self)
    obtain ⟨own, -, hown, hmodel, hentries⟩ := h.gathers _ hmem
    rw [Loader.pendingFor, hp]
    refine ⟨own ++ [r], by simp, hown.append_right [r], ?_, ?_⟩
    · intro other hother
      rcases List.mem_append.mp hother with hother | hother
      · exact hmodel other hother
      · rw [List.mem_singleton.mp hother]
    · rw [LoadEntry.gather_concat, ← hentries]
      rfl

theorem load (h : Sound c) (hnew : r.waiter ∉ c.known) : Sound (c.load r) where
  ordered := h.ordered.insert _ _
  accounted := calc
    (c.load r).loader.batches.flatMap LoadBatch.waiters ++ c.loader.outcomes.map Prod.fst
      ~ c.loader.batches.flatMap LoadBatch.waiters ++ [r.waiter] ++
          c.loader.outcomes.map Prod.fst :=
        (Loader.register_batches_perm h.ordered).append_right _
    _ ~ c.loader.batches.flatMap LoadBatch.waiters ++ c.loader.outcomes.map Prod.fst ++
          [r.waiter] := perm_append_right_comm _ _ _
    _ ~ c.known ++ [r.waiter] := h.accounted.append_right _
    _ ~ (c.load r).known := (c.known_load_perm r).symm
  nodup := (c.known_load_perm r).nodup_iff.mpr (nodup_known_concat h.nodup hnew)
  gathers := by
    intro batch hbatch
    have hgrown : c.registered.Sublist (c.registered ++ [r]) := List.sublist_append_left _ _
    rcases List.mem_append.mp hbatch with hbatch | hbatch
    · rcases List.mem_cons.mp
        ((Loader.register_pendingBatches_perm h.ordered).subset hbatch) with rfl | hbatch
      · exact h.gathers_addWaiter r
      · exact (h.gathers batch
          (List.mem_append_left _ (Loader.othersPending_subset hbatch))).mono hgrown
    · exact (h.gathers batch (List.mem_append_right _ hbatch)).mono hgrown
  ticked := by
    intro waiter hwaiter
    obtain ⟨hknown, hgone⟩ := h.ticked waiter hwaiter
    refine ⟨(c.known_load_perm r).symm.subset (List.mem_append_left _ hknown), fun hpending => ?_⟩
    rcases List.mem_append.mp ((Loader.register_waiters_perm h.ordered).subset hpending) with hp | hp
    · exact hgone hp
    · exact hnew (List.mem_singleton.mp hp ▸ hknown)

theorem refuse (h : Sound c) (fault : Fault) (hnew : waiter ∉ c.known) :
    Sound (c.refuse waiter fault) where
  ordered := h.ordered
  accounted := by
    have houtcomes : (c.refuse waiter fault).loader.outcomes.map Prod.fst =
        c.loader.outcomes.map Prod.fst ++ [waiter] :=
      List.map_append
    rw [known_refuse, houtcomes, ← List.append_assoc]
    exact h.accounted.append_right _
  nodup := known_refuse c waiter fault ▸ nodup_known_concat h.nodup hnew
  gathers := h.gathers
  ticked := by
    intro waiter hwaiter
    obtain ⟨hknown, hgone⟩ := h.ticked waiter hwaiter
    exact ⟨known_refuse c _ fault ▸ List.mem_append_left _ hknown, hgone⟩

theorem flush (h : Sound c) (model : String) : Sound (c.flush model) where
  ordered := Loader.dispatch_ordered h.ordered
  accounted := by
    rw [Course.flush, Loader.dispatch_outcomes]
    exact (((Loader.dispatch_batches_perm h.ordered).flatMap_right _).append_right _).trans
      h.accounted
  nodup := h.nodup
  gathers := fun batch hbatch =>
    h.gathers batch ((Loader.dispatch_batches_perm h.ordered).subset hbatch)
  ticked := by
    intro waiter hwaiter
    obtain ⟨hknown, hgone⟩ := h.ticked waiter hwaiter
    refine ⟨hknown, fun hpending => hgone ?_⟩
    rw [Course.flush, Loader.dispatch_pendingBatches] at hpending
    obtain ⟨batch, hbatch, hw⟩ := List.mem_flatMap.mp hpending
    exact List.mem_flatMap.mpr ⟨batch, Loader.othersPending_subset hbatch, hw⟩

/-- A load is in a batch of its model. -/
theorem model_eq (h : Sound c) (hbatch : batch ∈ c.loader.batches) (hr : r ∈ c.registered)
    (hw : r.waiter ∈ batch.waiters) : batch.model = r.model := by
  obtain ⟨own, -, hown, hmodel, hwaiters⟩ := (h.gathers batch hbatch).waiters_perm
  obtain ⟨other, hother, hsame⟩ := List.mem_map.mp (hwaiters.subset hw)
  have heq : other = r :=
    List.inj_on_of_nodup_map h.nodup.of_append_left (hown.subset hother) hr hsame
  rw [← hmodel other hother, heq]

theorem tick (h : Sound c) (hr : r ∈ c.registered) : Sound (c.tick r) := by
  have hflush := h.flush r.model
  refine ⟨hflush.ordered, hflush.accounted, hflush.nodup, hflush.gathers, fun waiter hwaiter => ?_⟩
  rcases List.mem_append.mp hwaiter with hwaiter | hwaiter
  · exact hflush.ticked waiter hwaiter
  · obtain rfl := List.mem_singleton.mp hwaiter
    refine ⟨List.mem_append_left _ (List.mem_map_of_mem hr), fun hpending => ?_⟩
    -- it could only be in a batch of its model, and that one is gone
    obtain ⟨batch, hbatch, hw⟩ := List.mem_flatMap.mp hpending
    have hmodel : batch.model = r.model :=
      hflush.model_eq (List.mem_append_left _ hbatch) hr hw
    have hother : batch ∈ c.loader.othersPending r.model :=
      Loader.dispatch_pendingBatches _ _ ▸ hbatch
    exact Loader.model_ne_of_mem_othersPending hother hmodel

theorem complete (h : Sound c) (result : Except Fault (Fields Item))
    (hbatch : batch ∈ c.loader.inFlight) : Sound (c.complete batch result) where
  ordered := h.ordered
  accounted := by
    have houtcomes : (c.complete batch result).loader.outcomes.map Prod.fst =
        c.loader.outcomes.map Prod.fst ++ batch.waiters :=
      List.map_append.trans (congrArg _ (Loader.outcomesOf_waiters batch result))
    have hbefore : (c.loader.batches.flatMap LoadBatch.waiters).Perm
        (batch.waiters ++ (c.complete batch result).loader.batches.flatMap LoadBatch.waiters) :=
      (Loader.complete_batches_perm hbatch).flatMap_right _
    rw [houtcomes]
    calc
      (c.complete batch result).loader.batches.flatMap LoadBatch.waiters ++
          (c.loader.outcomes.map Prod.fst ++ batch.waiters)
        ~ batch.waiters ++ ((c.complete batch result).loader.batches.flatMap LoadBatch.waiters ++
            c.loader.outcomes.map Prod.fst) := by
          rw [← List.append_assoc]
          exact List.perm_append_comm
      _ = batch.waiters ++ (c.complete batch result).loader.batches.flatMap LoadBatch.waiters ++
            c.loader.outcomes.map Prod.fst := (List.append_assoc _ _ _).symm
      _ ~ c.loader.batches.flatMap LoadBatch.waiters ++ c.loader.outcomes.map Prod.fst :=
          hbefore.symm.append_right _
      _ ~ c.known := h.accounted
  nodup := h.nodup
  gathers := fun other hother => h.gathers other
    ((Loader.complete_batches_perm hbatch).symm.subset (List.mem_cons_of_mem _ hother))
  ticked := h.ticked

theorem step (h : Sound c) (hstep : Step c next) : Sound next := by
  cases hstep with
  | load r hnew => exact h.load hnew
  | refuse waiter fault hnew => exact h.refuse fault hnew
  | tick r hr => exact h.tick hr
  | flush model => exact h.flush model
  | complete batch result hbatch => exact h.complete result hbatch

end Sound

theorem Reachable.sound (h : Reachable c) : Sound c := by
  induction h with
  | refl => exact sound_empty
  | tail _ hstep ih => exact ih.step hstep

/-! ## What follows -/

/-- What holds of a course at every moment. -/
structure Orderly (c : Course) : Prop where
  /-- A batch lists each of its keys once, in the order in which they came, and for each of them
  those who wait for it. -/
  gathers : ∀ batch ∈ c.loader.batches, batch.Gathers c.registered ∧
    (batch.entries.map LoadEntry.id).Nodup ∧ ∀ e ∈ batch.entries, e.waiters ≠ []
  /-- A load waits under its key, in a batch of its model. -/
  filed : ∀ batch ∈ c.loader.batches, ∀ e ∈ batch.entries, ∀ r ∈ c.registered,
    r.waiter ∈ e.waiters → e.id = r.id ∧ batch.model = r.model
  /-- A load that has registered is pending, in flight or at its end. -/
  held : ∀ r ∈ c.registered, ∃! place, c.loader.Holds r.waiter place
  /-- No batch is in flight twice. -/
  inFlight : c.loader.inFlight.Nodup
  /-- No load ends twice. -/
  outcomes : (c.loader.outcomes.map Prod.fst).Nodup
  /-- A batch that comes back ends all its loads, those of one key alike. -/
  completes : ∀ batch ∈ c.loader.inFlight, ∀ result, ∀ e ∈ batch.entries, ∀ waiter ∈ e.waiters,
    (c.complete batch result).loader.outcome? waiter =
      some (result.map fun found => Fields.get? found e.id)
  /-- A load ends once, when the batch that holds it comes back. -/
  resolves : ∀ next, Step c next → ∀ r ∈ c.registered,
    next.loader.outcome? r.waiter ≠ c.loader.outcome? r.waiter →
      c.loader.outcome? r.waiter = none ∧ ∃ batch ∈ c.loader.inFlight, r.waiter ∈ batch.waiters ∧
        ∃ result, next = c.complete batch result
  /-- A load whose own dispatch has taken place is not pending. -/
  ticked : ∀ waiter ∈ c.ticked, ∀ batch ∈ c.loader.pendingBatches, waiter ∉ batch.waiters

namespace Sound

theorem places_nodup (h : Sound c) :
    (c.loader.batches.flatMap LoadBatch.waiters ++ c.loader.outcomes.map Prod.fst).Nodup :=
  h.accounted.nodup_iff.mpr h.nodup

theorem batches_nodup (h : Sound c) : c.loader.batches.Nodup := by
  have hapart := (List.nodup_flatMap.mp h.places_nodup.of_append_left).2
  refine List.Pairwise.imp_of_mem ?_ hapart
  rintro batch other hbatch - hdisjoint rfl
  -- a batch holds somebody, so it is not disjoint from itself
  obtain ⟨own, hne, -, -, hwaiters⟩ := (h.gathers batch hbatch).waiters_perm
  obtain ⟨r, hr⟩ := List.exists_mem_of_ne_nil own hne
  have hw : r.waiter ∈ batch.waiters := hwaiters.symm.subset (List.mem_map_of_mem hr)
  exact hdisjoint hw hw

theorem waiters_nodup (h : Sound c) (hbatch : batch ∈ c.loader.batches) : batch.waiters.Nodup :=
  (List.nodup_flatMap.mp h.places_nodup.of_append_left).1 batch hbatch

theorem outcome?_eq_none (h : Sound c) (hbatch : batch ∈ c.loader.batches)
    (hw : waiter ∈ batch.waiters) : c.loader.outcome? waiter = none :=
  Loader.outcome?_eq_none_iff.mpr fun hend =>
    List.disjoint_of_nodup_append h.places_nodup (List.mem_flatMap.mpr ⟨batch, hbatch, hw⟩) hend

theorem filed (h : Sound c) (hbatch : batch ∈ c.loader.batches) {e : LoadEntry}
    (he : e ∈ batch.entries) (hr : r ∈ c.registered) (hw : r.waiter ∈ e.waiters) :
    e.id = r.id := by
  obtain ⟨own, -, hown, -, hentries⟩ := h.gathers batch hbatch
  obtain ⟨other, hother, hsame, hid⟩ := LoadEntry.exists_of_mem_waiters (hentries ▸ he) hw
  have heq : other = r :=
    List.inj_on_of_nodup_map h.nodup.of_append_left (hown.subset hother) hr hsame
  rw [← hid, heq]

theorem resolves (h : Sound c) (hstep : Step c next) (hr : r ∈ c.registered)
    (hchanged : next.loader.outcome? r.waiter ≠ c.loader.outcome? r.waiter) :
    c.loader.outcome? r.waiter = none ∧ ∃ batch ∈ c.loader.inFlight, r.waiter ∈ batch.waiters ∧
      ∃ result, next = c.complete batch result := by
  cases hstep with
  | load other hnew => exact absurd rfl hchanged
  | refuse waiter fault hnew =>
    refine absurd (Loader.outcome?_refuse_of_ne fun heq => hnew ?_) hchanged
    exact heq ▸ List.mem_append_left _ (List.mem_map_of_mem hr)
  | tick other hother => exact absurd (Loader.outcome?_dispatch _ _ _) hchanged
  | flush model => exact absurd (Loader.outcome?_dispatch _ _ _) hchanged
  | complete batch result hbatch =>
    by_cases hw : r.waiter ∈ batch.waiters
    · exact ⟨h.outcome?_eq_none (List.mem_append_right _ hbatch) hw, batch, hbatch, hw, result, rfl⟩
    · exact absurd (Loader.outcome?_complete_of_notMem hw) hchanged

end Sound

/-- Whatever happens to a loader, and in whatever order. -/
theorem Reachable.orderly (h : Reachable c) : Orderly c := by
  have hsound := h.sound
  refine ⟨fun batch hbatch => ?_, fun batch hbatch e he r hr hw => ?_, fun r hr => ?_, ?_, ?_,
    fun batch hbatch result e he waiter hw => ?_, fun next hstep r hr => hsound.resolves hstep hr,
    fun waiter hwaiter batch hbatch hw => ?_⟩
  · obtain ⟨own, -, -, -, hentries⟩ := hsound.gathers batch hbatch
    refine ⟨hsound.gathers batch hbatch, ?_, ?_⟩ <;> rw [hentries]
    · exact LoadEntry.nodup_gather own
    · exact fun e => LoadEntry.waiters_ne_nil
  · exact ⟨hsound.filed hbatch he hr hw,
      hsound.model_eq hbatch hr (List.mem_flatMap.mpr ⟨e, he, hw⟩)⟩
  · exact Loader.existsUnique_holds hsound.places_nodup
      (hsound.accounted.symm.subset (List.mem_append_left _ (List.mem_map_of_mem hr)))
  · exact hsound.batches_nodup.of_append_right
  · exact hsound.places_nodup.of_append_right
  · have hmem := List.mem_append_right c.loader.pendingBatches hbatch
    exact Loader.outcome?_complete (hsound.waiters_nodup hmem) he hw
      (hsound.outcome?_eq_none hmem (List.mem_flatMap.mpr ⟨e, he, hw⟩))
  · exact (hsound.ticked waiter hwaiter).2 (List.mem_flatMap.mpr ⟨batch, hbatch, hw⟩)

/-- Three loads of users, of which two ask for the same one, and the tick of the first. -/
def users : Course :=
  let ada : Item := [("id", .str "ada")]
  let bob : Item := [("id", .str "bob")]
  ((((({} : Course).load ⟨0, "user", ada⟩).load ⟨1, "user", bob⟩).load ⟨2, "user", ada⟩).tick
    ⟨0, "user", ada⟩)

theorem Reachable.orderly_users : Reachable users ∧ Orderly users ∧
    users.loader.inFlight.map (fun batch => batch.entries.map LoadEntry.waiters) = [[[0, 2], [1]]] := by
  have hreachable : Reachable users := by
    refine .tail (.tail (.tail (.tail .refl (.load _ ?_)) (.load _ ?_)) (.load _ ?_)) (.tick _ ?_)
    · decide
    · decide
    · decide
    · exact List.mem_cons_self
  exact ⟨hreachable, hreachable.orderly, by decide +kernel⟩

end Course

end KeyedQuery
