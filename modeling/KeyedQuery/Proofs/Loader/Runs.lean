import KeyedQuery.Loader.Schedule
import KeyedQuery.Proofs.Loader.Courses

/-!
# Loads on a clock take a course

`Loads` lets loads of one loader take turns in an order that their times fix. Whatever it does to
the loader is a step that a `Course` can take (`Loads.Follows.perform`), so what holds of every
reachable course holds of every moment of a run (`Loads.Follows.runWhile`,
`Database.runLoads_course`).

What carries the steps is that the agenda claims nothing twice: one event registers a load, and one
goes on with a batch in flight (`Agenda.Fits`).
-/

namespace KeyedQuery

open Course (Reachable Step)

namespace LoadAction

/-- What an action claims for itself: to register a load, or to go on with a batch. -/
def claim? (load : Nat) : LoadAction → Option (Nat ⊕ LoadBatch)
  | .register => some (.inl load)
  | .resume batch _ => some (.inr batch)
  | .wait _ next => next.claim? load
  | .dispatch | .collect => none

/-- A load may do this at a moment of a course, or will be able to once its waits are over. -/
def Permitted (loads : List Load) (c : Course) (load : Nat) : LoadAction → Prop
  | .register => load ∉ c.known
  | .resume batch _ => batch ∈ c.loader.inFlight
  | .wait _ next => next.Permitted loads c load
  | .dispatch => ∀ described, loads[load]? = some described →
      ∃ r ∈ c.registered, r.waiter = load ∧ r.model = described.model
  | .collect => True

end LoadAction

namespace Event

/-- What an event claims for itself. -/
def claim? (e : Event) : Option (Nat ⊕ LoadBatch) :=
  e.action.claim? e.load

/-- An event may happen. -/
def Permitted (loads : List Load) (c : Course) (e : Event) : Prop :=
  e.action.Permitted loads c e.load

end Event

/-- Every event may happen, and no two claim the same. -/
structure Agenda.Fits (loads : List Load) (c : Course) (agenda : Agenda) : Prop where
  permitted : ∀ e ∈ agenda, e.Permitted loads c
  nodup : (agenda.filterMap Event.claim?).Nodup

/-- Loads under way are at a moment of a course. -/
structure Loads.Follows {σ : Type} (loads : List Load) (s : Loads σ) (c : Course) : Prop where
  reachable : c.Reachable
  loader_eq : s.loader = c.loader
  fits : s.agenda.Fits loads c

namespace Agenda

variable {loads : List Load} {c next : Course} {agenda agenda' rest : Agenda} {e f : Event}

theorem insertBy_perm (ahead : Event → Event → Bool) (e : Event) (agenda : Agenda) :
    (agenda.insertBy ahead e).Perm (e :: agenda) := by
  induction agenda with
  | nil => exact .refl _
  | cons f rest ih =>
    unfold insertBy
    split
    · exact (ih.cons f).trans (.swap _ _ _)
    · exact .refl _

namespace Fits

theorem perm (h : Fits loads c agenda) (hperm : agenda'.Perm agenda) : Fits loads c agenda' where
  permitted := fun e he => h.permitted e (hperm.subset he)
  nodup := (hperm.filterMap _).nodup_iff.mpr h.nodup

theorem tail (h : Fits loads c (e :: rest)) : Fits loads c rest where
  permitted := fun f hf => h.permitted f (List.mem_cons_of_mem _ hf)
  nodup := h.nodup.sublist ((List.sublist_cons_self e rest).filterMap _)

/-- An event that claims nothing is no obstacle. -/
theorem cons (h : Fits loads c rest) (hclaim : e.claim? = none) (he : e.Permitted loads c) :
    Fits loads c (e :: rest) where
  permitted := List.forall_mem_cons.mpr ⟨he, h.permitted⟩
  nodup := by
    rw [List.filterMap_cons_none hclaim]
    exact h.nodup

/-- An event may claim what no other one does. -/
theorem claim (h : Fits loads c rest) {claim : Nat ⊕ LoadBatch} (hclaim : e.claim? = some claim)
    (hfree : ∀ f ∈ rest, f.claim? ≠ some claim) (he : e.Permitted loads c) :
    Fits loads c (e :: rest) where
  permitted := List.forall_mem_cons.mpr ⟨he, h.permitted⟩
  nodup := by
    rw [List.filterMap_cons_some hclaim]
    refine List.nodup_cons.mpr ⟨fun hmem => ?_, h.nodup⟩
    obtain ⟨f, hf, heq⟩ := List.mem_filterMap.mp hmem
    exact hfree f hf heq

/-- An event takes the place of another with the same claim. -/
theorem replace (h : Fits loads c (e :: rest)) (hclaim : f.claim? = e.claim?)
    (hf : e.Permitted loads c → f.Permitted loads c) : Fits loads c (f :: rest) where
  permitted := List.forall_mem_cons.mpr ⟨hf (h.permitted e List.mem_cons_self), h.tail.permitted⟩
  nodup := by
    have hsame : (f :: rest).filterMap Event.claim? = (e :: rest).filterMap Event.claim? := by
      rw [List.filterMap_cons, List.filterMap_cons, hclaim]
    exact hsame ▸ h.nodup

/-- What an event claims, no later one does. -/
theorem claim?_ne (h : Fits loads c (e :: rest)) {claim : Nat ⊕ LoadBatch}
    (hclaim : e.claim? = some claim) : ∀ f ∈ rest, f.claim? ≠ some claim := by
  intro f hf heq
  have hnodup := h.nodup
  rw [List.filterMap_cons_some hclaim] at hnodup
  exact (List.nodup_cons.mp hnodup).1 (List.mem_filterMap.mpr ⟨f, hf, heq⟩)

theorem mono (h : Fits loads c agenda)
    (hnext : ∀ e ∈ agenda, e.Permitted loads c → e.Permitted loads next) :
    Fits loads next agenda where
  permitted := fun e he => hnext e he (h.permitted e he)
  nodup := h.nodup

end Fits

end Agenda

namespace LoadAction

variable {loads : List Load} {c next : Course} {load : Nat} {action : LoadAction}

/-- What a load may do, it still may when more loads have come and more batches are in flight. -/
theorem Permitted.mono (h : action.Permitted loads c load)
    (hregistered : c.registered ⊆ next.registered)
    (hknown : action.claim? load = some (.inl load) → load ∉ c.known → load ∉ next.known)
    (hinFlight : ∀ batch, action.claim? load = some (.inr batch) → batch ∈ c.loader.inFlight →
      batch ∈ next.loader.inFlight) : action.Permitted loads next load := by
  induction action with
  | register => exact hknown rfl h
  | dispatch =>
    intro described hdescribed
    obtain ⟨r, hr, hload⟩ := h described hdescribed
    exact ⟨r, hregistered hr, hload⟩
  | resume batch rest => exact hinFlight batch rfl h
  | collect => trivial
  | wait instant action ih => exact ih h hknown hinFlight

theorem Permitted.mem_inFlight {batch : LoadBatch} (h : action.Permitted loads c load)
    (hclaim : action.claim? load = some (.inr batch)) : batch ∈ c.loader.inFlight := by
  induction action with
  | register => cases hclaim
  | dispatch => cases hclaim
  | resume other rest =>
    obtain rfl := Sum.inr.inj (Option.some.inj hclaim)
    exact h
  | collect => cases hclaim
  | wait instant action ih => exact ih h hclaim

end LoadAction

namespace Loads

variable {σ : Type} {db : Database} {client : Client σ} {tick : Tick} {loads : List Load}
  {s : Loads σ} {c : Course} {e : Event} {batch : LoadBatch} {model : String}
  {rest : Dialogue (Except Fault (Fields Item))}

theorem giveWay_agenda_perm (s : Loads σ) (e : Event) (action : LoadAction) :
    (s.giveWay e action).agenda.Perm ({ e with turn := e.turn + 1, action } :: s.agenda) := by
  unfold giveWay
  cases s.queued
  · exact Agenda.insertBy_perm _ _ _
  · exact Agenda.insertBy_perm _ _ _

theorem note_agenda_perm (s : Loads σ) (e : Event) : (s.note e).agenda.Perm (e :: s.agenda) := by
  unfold note
  cases s.queued
  · exact Agenda.insertBy_perm _ _ _
  · exact Agenda.insertBy_perm _ _ _

namespace Follows

/-! ## Noting events -/

theorem note (h : s.Follows loads c) (hclaim : e.claim? = none) (he : e.Permitted loads c) :
    (s.note e).Follows loads c where
  reachable := h.reachable
  loader_eq := h.loader_eq
  fits := (h.fits.cons hclaim he).perm (s.note_agenda_perm e)

theorem call (h : s.Follows loads c) (turnOf : Nat → Nat) : (s.call turnOf).Follows loads c := by
  have hfold : ∀ (called : List Nat) (s : Loads σ), s.Follows loads c →
      (called.foldl (fun s load => s.note ⟨s.clock, turnOf load, load, .collect⟩) s).Follows
        loads c := by
    intro called
    induction called with
    | nil => exact fun _ h => h
    | cons load called ih => exact fun s h => ih _ (h.note rfl trivial)
  exact hfold _ _ ⟨h.reachable, h.loader_eq, h.fits⟩

theorem goOn_collect (h : s.Follows loads c) (e : Event) : (s.goOn e .collect).Follows loads c where
  reachable := h.reachable
  loader_eq := h.loader_eq
  fits := h.fits.cons rfl trivial

/-! ## Single events -/

theorem register (h : s.Follows loads c) (db : Database) (tick : Tick) {load : Load}
    (hload : loads[e.load]? = some load) (hnew : e.load ∉ c.known)
    (hfree : ∀ f ∈ s.agenda, f.claim? ≠ some (.inl e.load)) :
    ∃ next, (s.register db tick e load).Follows loads next := by
  have hothers : ∀ next : Course, c.registered ⊆ next.registered →
      c.loader.inFlight ⊆ next.loader.inFlight →
      (∀ waiter, waiter ∈ next.known → waiter ∈ c.known ∨ waiter = e.load) →
      s.agenda.Fits loads next := by
    intro next hregistered hinFlight hknown
    refine h.fits.mono fun f hf hpermitted => hpermitted.mono hregistered (fun hclaim hfresh => ?_)
      (fun batch _ hbatch => hinFlight hbatch)
    intro hcome
    rcases hknown _ hcome with hbefore | heq
    · exact hfresh hbefore
    · exact hfree f hf (hclaim.trans (congrArg (some ∘ Sum.inl) heq))
  unfold Loads.register
  cases hkey : db.loadKey load.model load.asked with
  | error fault =>
    refine ⟨c.refuse e.load fault, h.reachable.tail (.refuse _ _ hnew), ?_,
      hothers _ (List.Subset.refl _) (List.Subset.refl _) fun waiter hwaiter => ?_⟩
    · exact congrArg (Loader.refuse · e.load fault) h.loader_eq
    · rw [Course.known_refuse] at hwaiter
      exact (List.mem_append.mp hwaiter).imp_right List.mem_singleton.mp
  | ok key =>
    let r : Registration := ⟨e.load, load.model, key⟩
    have hfollows : Loads.Follows loads
        { s with loader := s.loader.register load.model e.load key } (c.load r) := by
      refine ⟨h.reachable.tail (.load r hnew), ?_,
        hothers _ (List.subset_append_left _ _) (List.Subset.refl _) fun waiter hwaiter => ?_⟩
      · exact congrArg (Loader.register · load.model e.load key) h.loader_eq
      · exact (List.mem_append.mp ((c.known_load_perm r).subset hwaiter)).imp_right
          List.mem_singleton.mp
    have hdispatch : LoadAction.dispatch.Permitted loads (c.load r) e.load := by
      intro described hdescribed
      obtain rfl := Option.some.inj (hload.symm.trans hdescribed)
      exact ⟨r, List.mem_append_right _ List.mem_cons_self, rfl, rfl⟩
    refine ⟨c.load r, ?_⟩
    cases tick with
    | turn =>
      exact ⟨hfollows.reachable, hfollows.loader_eq,
        (hfollows.fits.cons (e := { e with turn := e.turn + 1, action := .dispatch }) rfl
          hdispatch).perm (giveWay_agenda_perm _ _ _)⟩
    | after ms =>
      exact ⟨hfollows.reachable, hfollows.loader_eq,
        hfollows.fits.cons (e := { e with action := .wait (e.time + ms) .dispatch }) rfl hdispatch⟩
    | never => exact hfollows.goOn_collect e

theorem complete (h : s.Follows loads c) (hbatch : batch ∈ c.loader.inFlight)
    (hfree : ∀ f ∈ s.agenda, f.claim? ≠ some (.inr batch)) (world : World σ)
    (result : Except Fault (Fields Item)) :
    Loads.Follows loads { s with world, loader := s.loader.complete batch result }
      (c.complete batch result) where
  reachable := h.reachable.tail (.complete batch result hbatch)
  loader_eq := congrArg (Loader.complete · batch result) h.loader_eq
  fits := h.fits.mono fun f hf hpermitted => hpermitted.mono (List.Subset.refl _)
    (fun _ hfresh => hfresh) fun other hclaim hother => by
      have hne : other ≠ batch := fun heq => hfree f hf (hclaim.trans (by rw [heq]))
      exact (List.mem_erase_of_ne hne).mpr hother

theorem proceed (h : s.Follows loads c) (client : Client σ) (e : Event)
    (rest : Dialogue (Except Fault (Fields Item))) (hbatch : batch ∈ c.loader.inFlight)
    (hfree : ∀ f ∈ s.agenda, f.claim? ≠ some (.inr batch)) :
    ∃ next, (s.proceed client e batch rest).Follows loads next := by
  unfold Loads.proceed
  obtain ⟨end', world⟩ := rest.runToWait client s.world
  cases end' with
  | inl result =>
    exact ⟨_, ((h.complete hbatch hfree world result).call _).goOn_collect e⟩
  | inr paused =>
    exact ⟨c, h.reachable, h.loader_eq, h.fits.claim rfl hfree hbatch⟩

/-- Somebody has a model dispatched. -/
theorem dispatched (h : s.Follows loads c) {next : Course} (hstep : c.Step next)
    (hloader : next.loader = c.loader.dispatch model) (hregistered : next.registered = c.registered)
    (hknown : next.known = c.known) : Loads.Follows loads { s with loader := next.loader } next where
  reachable := h.reachable.tail hstep
  loader_eq := rfl
  fits := h.fits.mono fun _ _ hpermitted => hpermitted.mono (fun _ hr => hregistered ▸ hr)
    (fun _ hfresh => hknown ▸ hfresh)
    (fun _ _ hbatch => hloader ▸ c.loader.inFlight_subset_dispatch model hbatch)

/-- Nobody has gone on yet with a batch that has just been dispatched. -/
theorem unclaimed (h : s.Follows loads c) {next : Course} (hnext : next.Reachable)
    (hinFlight : next.loader.inFlight = c.loader.inFlight ++ [batch]) :
    ∀ f ∈ s.agenda, f.claim? ≠ some (.inr batch) := by
  intro f hf hclaim
  have hbefore : batch ∈ c.loader.inFlight := (h.fits.permitted f hf).mem_inFlight hclaim
  have hnodup : (c.loader.inFlight ++ [batch]).Nodup :=
    hinFlight ▸ hnext.sound.batches_nodup.of_append_right
  exact List.disjoint_of_nodup_append hnodup hbefore List.mem_cons_self

theorem dispatch (h : s.Follows loads c) (db : Database) (client : Client σ) (e : Event)
    {r : Registration} (hr : r ∈ c.registered) :
    ∃ next, (s.dispatch db client e r.model).Follows loads next := by
  have htick := h.dispatched (.tick r hr) rfl rfl rfl
  unfold Loads.dispatch
  cases hd : s.loader.dispatch? r.model with
  | none =>
    have hsame : (c.tick r).loader = s.loader := by
      rw [h.loader_eq] at hd ⊢
      exact Loader.dispatch_of_dispatch?_eq_none hd
    rw [hsame] at htick
    exact ⟨c.tick r, htick.goOn_collect e⟩
  | some taken =>
    obtain ⟨batch, loader⟩ := taken
    rw [h.loader_eq] at hd
    obtain ⟨rfl, hinFlight⟩ := Loader.dispatch_of_dispatch?_eq_some hd
    exact htick.proceed client e _ (hinFlight ▸ List.mem_append_right _ List.mem_cons_self)
      (h.unclaimed htick.reachable hinFlight)

theorem flush (h : s.Follows loads c) (db : Database) (client : Client σ) (model : String) :
    ∃ next, (s.flush db client model).Follows loads next := by
  have hflush := h.dispatched (.flush model) rfl rfl rfl
  unfold Loads.flush
  cases hd : s.loader.dispatch? model with
  | none => exact ⟨c, h⟩
  | some taken =>
    obtain ⟨batch, loader⟩ := taken
    rw [h.loader_eq] at hd
    obtain ⟨rfl, hinFlight⟩ := Loader.dispatch_of_dispatch?_eq_some hd
    exact ⟨_, hflush.complete (hinFlight ▸ List.mem_append_right _ List.mem_cons_self)
      (h.unclaimed hflush.reachable hinFlight) _ _⟩

theorem collect (h : s.Follows loads c) (e : Event) : (s.collect e).Follows loads c := by
  unfold Loads.collect
  split
  · exact ⟨h.reachable, h.loader_eq,
      (h.fits.cons (e := { e with turn := e.turn + 1, action := .collect }) rfl trivial).perm
        (giveWay_agenda_perm _ _ _)⟩
  · split
    · exact ⟨h.reachable, h.loader_eq, h.fits⟩
    · exact ⟨h.reachable, h.loader_eq, h.fits⟩

/-- A wait claims what comes after it. -/
theorem wait {action : LoadAction} (h : s.Follows loads c) (instant : Nat)
    (hfits : Agenda.Fits loads c ({ e with action := .wait instant action } :: s.agenda)) :
    (s.wait e instant action).Follows loads c := by
  unfold Loads.wait
  split
  · exact ⟨h.reachable, h.loader_eq,
      (hfits.replace (f := { e with turn := e.turn + 1, action := .wait instant action }) rfl
        id).perm (giveWay_agenda_perm _ _ _)⟩
  · split
    · exact ⟨h.reachable, h.loader_eq,
        (hfits.replace (f := { e with time := instant, turn := 0, action := .wait instant action })
          rfl id).perm (note_agenda_perm _ _)⟩
    · exact ⟨h.reachable, h.loader_eq, hfits.replace (f := { e with action }) rfl id⟩

/-! ## Whole runs -/

/-- Whatever an event does to the loader can happen next. -/
theorem perform (h : s.Follows loads c) (hfits : Agenda.Fits loads c (e :: s.agenda))
    (db : Database) (client : Client σ) (tick : Tick) :
    ∃ next, (s.perform db client tick loads e).Follows loads next := by
  have hpermitted : e.Permitted loads c := hfits.permitted e List.mem_cons_self
  obtain ⟨time, turn, load, action⟩ := e
  unfold Loads.perform
  cases hload : loads[load]? with
  | none =>
    cases action with
    | register => exact ⟨c, h⟩
    | dispatch => exact ⟨c, h⟩
    | resume batch rest => exact h.proceed client _ rest hpermitted (hfits.claim?_ne rfl)
    | collect => exact ⟨c, h.collect _⟩
    | wait instant action => exact ⟨c, h.wait instant hfits⟩
  | some described =>
    cases action with
    | register =>
      exact h.register db tick (e := ⟨time, turn, load, .register⟩) hload hpermitted
        (hfits.claim?_ne rfl)
    | dispatch =>
      obtain ⟨r, hr, -, hmodel⟩ := hpermitted described hload
      have hdispatch := h.dispatch db client ⟨time, turn, load, .dispatch⟩ hr
      rw [hmodel] at hdispatch
      exact hdispatch
    | resume batch rest => exact h.proceed client _ rest hpermitted (hfits.claim?_ne rfl)
    | collect => exact ⟨c, h.collect _⟩
    | wait instant action => exact ⟨c, h.wait instant hfits⟩

theorem runWhile (db : Database) (client : Client σ) (tick : Tick) (going : Event → Bool) (n : Nat)
    (h : s.Follows loads c) :
    ∃ next, (s.runWhile db client tick loads going n).Follows loads next := by
  induction n generalizing s c with
  | zero => exact ⟨c, h⟩
  | succ n ih =>
    unfold Loads.runWhile
    cases hagenda : s.agenda with
    | nil => exact ⟨c, h⟩
    | cons e rest =>
      simp only
      split
      · have hfits : Agenda.Fits loads c (e :: rest) := hagenda ▸ h.fits
        have hcome : (s.advance e rest).Follows loads c := ⟨h.reachable, h.loader_eq, hfits.tail⟩
        obtain ⟨next, hnext⟩ := hcome.perform hfits db client tick
        exact ih hnext
      · exact ⟨c, h⟩

theorem flushAll (h : s.Follows loads c) (db : Database) (client : Client σ) :
    ∃ next, (s.flushAll db client).Follows loads next := by
  have hfold : ∀ (models : List String) (s : Loads σ) (c : Course), s.Follows loads c →
      ∃ next, (models.foldl (Loads.flush db client) s).Follows loads next := by
    intro models
    induction models with
    | nil => exact fun _ c h => ⟨c, h⟩
    | cons model models ih =>
      intro s c h
      obtain ⟨next, hnext⟩ := h.flush db client model
      exact ih _ next hnext
  obtain ⟨next, hnext⟩ := hfold (Fields.names s.loader.pending) s c h
  exact ⟨next, hnext.call _⟩

/-- Loads that have not started are at the beginning of a course. -/
theorem ofList (tick : Tick) (loads : List Load) (world : World σ) :
    (Loads.ofList tick loads world).Follows loads {} where
  reachable := .refl
  loader_eq := rfl
  fits := by
    have hclaim : ∀ i : Nat, ∀ load : Load,
        ((load.start?.map (LoadAction.wait · .register)).getD .register).claim? i = some (.inl i) ∧
          ((load.start?.map (LoadAction.wait · .register)).getD .register).Permitted loads {} i := by
      intro i load
      cases load.start? <;> exact ⟨rfl, List.not_mem_nil⟩
    refine ⟨fun e he => ?_, List.pairwise_filterMap.mpr (List.pairwise_iff_getElem.mpr ?_)⟩
    · obtain ⟨i, hi, rfl⟩ := List.mem_mapIdx.mp he
      exact (hclaim i _).2
    · intro i j hi hj hlt claim hclaim₁ claim' hclaim₂
      simp only [Loads.ofList, List.getElem_mapIdx] at hclaim₁ hclaim₂
      obtain rfl := Option.some.inj ((hclaim i _).1.symm.trans hclaim₁)
      obtain rfl := Option.some.inj ((hclaim j _).1.symm.trans hclaim₂)
      exact fun heq => Nat.ne_of_lt hlt (Sum.inl.inj heq)

end Follows

end Loads

/-- What loads end with when they run next to each other, a course of their loader ends with. -/
theorem Database.runLoads_course {σ : Type} (db : Database) (client : Client σ) (tick : Tick)
    (loads : List Load) (world : World σ) :
    ∃ c : Course, c.Reachable ∧
      (db.runLoads client tick loads world).outcomes =
        (List.range loads.length).map c.loader.outcome? ∧
      (db.runLoads client tick loads world).pendingAfter = c.loader.pendingKeys := by
  obtain ⟨c, hregistered⟩ := (Loads.Follows.ofList tick loads world).runWhile db client tick
    Event.isFirst (Loads.eventBound db loads)
  unfold Database.runLoads
  extract_lets bound registered flushed s
  obtain ⟨next, hflushed⟩ : ∃ next, flushed.Follows loads next := by
    by_cases htick : tick = .never
    · have hcase : flushed = registered.flushAll db client := if_pos htick
      exact hcase ▸ hregistered.flushAll db client
    · have hcase : flushed = registered := if_neg htick
      exact ⟨c, hcase ▸ hregistered⟩
  obtain ⟨last, hlast⟩ := hflushed.runWhile db client tick (fun _ => true) bound
  exact ⟨last, hlast.reachable, hlast.loader_eq ▸ rfl, hlast.loader_eq ▸ rfl⟩

end KeyedQuery
