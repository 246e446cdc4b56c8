import KeyedQuery.Proofs.Database.Reads
import KeyedQuery.Proofs.Loader.Fetching
import KeyedQuery.Proofs.Loader.Runs

/-!
# Events in a calm store

`Loads.Happens` says what an event does to loads whose batches are fetched without a wait. Every event
uses up some of the work that is left for its load, or it finds no free place and is put off to the next
turn, and the turns without a free place do not last (`Loads.Happens.potential_lt`). So the agenda is
empty before more events have happened than a run allows (`Loads.runWhile_spec`).
-/

namespace KeyedQuery

/-! ## What an event does -/

/-- What a load is going to do once its waits are over. -/
inductive LoadStage where
  | register | dispatch | resume | collect
deriving DecidableEq

/-- What the action comes to once its waits are over. -/
def LoadAction.stage : LoadAction → LoadStage
  | .register => .register
  | .dispatch => .dispatch
  | .resume _ _ => .resume
  | .collect => .collect
  | .wait _ next => next.stage

/-- What a load does when it has registered its key in an event. -/
def Event.afterTick (e : Event) : Tick → Event
  | .turn => { e with turn := e.turn + 1, action := .dispatch }
  | .after ms => { e with action := .wait (e.time + ms) .dispatch }
  | .never => { e with action := .collect }

/-- A model is dispatched, and the outcomes of its batch become known. -/
structure Loader.Fetches (db : Database) (tables : Fields Table) (model : String) (l next : Loader) :
    Prop where
  pending_eq : next.pending = Fields.erase l.pending model
  exists_outcomes : ∃ (entries : List LoadEntry) (t : Table),
    Fields.get? l.pending model = some entries ∧ db.LiesOn model tables t ∧
      next.outcomes = l.outcomes ++ outcomesOf ⟨model, entries⟩ (.ok (Database.rowsByKey t.keys
        ((RetryConfig.distinctKeys (entries.map LoadEntry.key)).filterMap t.find?)))

namespace Loads

/-- What an event makes of loads in a calm store. Where an event is noted among the others is left
open. -/
inductive Happens (db : Database) (tables : Fields Table) (tick : Tick) (loads : List Load)
    (s : Loads Memory) (e : Event) : Loads Memory → Prop where
  /-- There is no such load. -/
  | nothing (haction : e.action = .register ∨ e.action = .dispatch) (hload : loads[e.load]? = none) :
      Happens db tables tick loads s e s
  /-- No place is free. -/
  | giveWay (hplaces : s.world.places = 0) {agenda : Agenda}
      (hagenda : agenda.Perm ({ e with turn := e.turn + 1 } :: s.agenda)) :
      Happens db tables tick loads s e { s with agenda }
  /-- A wait begins. -/
  | sleep (hplaces : s.world.places ≠ 0) {instant : Nat} {next : LoadAction}
      (haction : e.action = .wait instant next) (htime : e.time < instant) {agenda : Agenda}
      (hagenda : agenda.Perm ({ e with time := instant, turn := 0 } :: s.agenda)) :
      Happens db tables tick loads s e { s with agenda }
  /-- A wait ends. -/
  | wake (hplaces : s.world.places ≠ 0) {instant : Nat} {next : LoadAction}
      (haction : e.action = .wait instant next) (htime : instant ≤ e.time) :
      Happens db tables tick loads s e (s.takePlace.goOn e next)
  /-- A load is refused. -/
  | refuse {load : Load} {fault : Fault} (haction : e.action = .register)
      (hload : loads[e.load]? = some load)
      (hkey : db.loadKey load.model load.asked = .error fault) :
      Happens db tables tick loads s e { s with loader := s.loader.refuse e.load fault }
  /-- A load registers its key. -/
  | register {load : Load} {key : Item} (haction : e.action = .register)
      (hload : loads[e.load]? = some load) (hkey : db.loadKey load.model load.asked = .ok key)
      {agenda : Agenda} (hagenda : agenda.Perm (e.afterTick tick :: s.agenda)) :
      Happens db tables tick loads s e
        { s with loader := s.loader.register load.model e.load key, agenda }
  /-- A load finds its model dispatched. -/
  | dispatch {load : Load} (haction : e.action = .dispatch) (hload : loads[e.load]? = some load)
      (hpending : Fields.get? s.loader.pending load.model = none) :
      Happens db tables tick loads s e (s.goOn e .collect)
  /-- A load dispatches its model. -/
  | fetch {load : Load} {world : World Memory} {called waiting : List Nat} {turnOf : Nat → Nat}
      {agenda : Agenda} {loader : Loader} (haction : e.action = .dispatch)
      (hload : loads[e.load]? = some load) (hfetches : s.loader.Fetches db tables load.model loader)
      (hstore : world.store = s.world.store) (hplaces : world.places = s.world.places)
      (hcalled : ∀ i ∈ called, (loader.outcome? i).isSome)
      (hwaiting : s.waiting.Perm (called ++ waiting))
      (hagenda : agenda.Perm ({ e with action := .collect } ::
        (called.map (fun i => ⟨s.clock, turnOf i, i, .collect⟩) ++ s.agenda))) :
      Happens db tables tick loads s e { s with world, loader, agenda, waiting }
  /-- A load takes its outcome. -/
  | collect (hplaces : s.world.places ≠ 0) (haction : e.action = .collect)
      (hknown : (s.loader.outcome? e.load).isSome) : Happens db tables tick loads s e s.takePlace
  /-- A load waits until its outcome is known. -/
  | await (hplaces : s.world.places ≠ 0) (haction : e.action = .collect)
      (hunknown : (s.loader.outcome? e.load).isSome = false) :
      Happens db tables tick loads s e { s with waiting := s.waiting ++ [e.load] }

variable {db : Database} {tables : Fields Table} {tick : Tick} {loads : List Load} {s : Loads Memory}
  {e : Event}

theorem exists_giveWay_eq {σ : Type} (s : Loads σ) (e : Event) (action : LoadAction) :
    ∃ agenda : Agenda, agenda.Perm ({ e with turn := e.turn + 1, action } :: s.agenda) ∧
      s.giveWay e action = { s with agenda } :=
  ⟨_, s.giveWay_agenda_perm e action, rfl⟩

theorem exists_note_eq {σ : Type} (s : Loads σ) (e : Event) :
    ∃ agenda : Agenda, agenda.Perm (e :: s.agenda) ∧ s.note e = { s with agenda } :=
  ⟨_, s.note_agenda_perm e, rfl⟩

/-- Calling the loads whose outcome is known notes that each of them takes it. -/
theorem exists_call_eq {σ : Type} (s : Loads σ) (turnOf : Nat → Nat) :
    ∃ (called waiting : List Nat) (agenda : Agenda),
      (∀ i ∈ called, (s.loader.outcome? i).isSome) ∧ s.waiting.Perm (called ++ waiting) ∧
      agenda.Perm (called.map (fun i => ⟨s.clock, turnOf i, i, .collect⟩) ++ s.agenda) ∧
      s.call turnOf = { s with agenda, waiting } := by
  have hfold : ∀ (called : List Nat) (s : Loads σ), ∃ agenda : Agenda,
      agenda.Perm (called.map (fun i => ⟨s.clock, turnOf i, i, .collect⟩) ++ s.agenda) ∧
      called.foldl (fun s load => s.note ⟨s.clock, turnOf load, load, .collect⟩) s =
        { s with agenda } := by
    intro called
    induction called with
    | nil => exact fun s => ⟨s.agenda, .refl _, rfl⟩
    | cons i called ih =>
      intro s
      obtain ⟨noted, hnoted, hnote⟩ := s.exists_note_eq ⟨s.clock, turnOf i, i, .collect⟩
      obtain ⟨agenda, hagenda, hrest⟩ := ih { s with agenda := noted }
      refine ⟨agenda, ?_, by rw [List.foldl_cons, hnote, hrest]⟩
      refine hagenda.trans ((hnoted.append_left _).trans ?_)
      exact List.perm_middle
  let called := s.waiting.filter fun load => (s.loader.outcome? load).isSome
  let waiting := s.waiting.filter fun load => !(s.loader.outcome? load).isSome
  obtain ⟨agenda, hagenda, hcall⟩ := hfold called { s with waiting }
  refine ⟨called, waiting, agenda, fun i hi => (List.mem_filter.mp hi).2,
    (List.filter_append_perm _ s.waiting).symm, hagenda, ?_⟩
  rw [call, List.partition_eq_filter_filter]
  exact hcall

theorem happens_giveWay (hplaces : s.world.places = 0) :
    Happens db tables tick loads s e (s.giveWay e e.action) := by
  obtain ⟨agenda, hagenda, heq⟩ := s.exists_giveWay_eq e e.action
  rw [heq]
  exact .giveWay hplaces hagenda

theorem happens_register {load : Load} (haction : e.action = .register)
    (hload : loads[e.load]? = some load) :
    Happens db tables tick loads s e (s.register db tick e load) := by
  unfold register
  cases hkey : db.loadKey load.model load.asked with
  | error fault => exact .refuse haction hload hkey
  | ok key =>
    cases tick with
    | turn =>
      obtain ⟨agenda, hagenda, heq⟩ := exists_giveWay_eq
        { s with loader := s.loader.register load.model e.load key } e .dispatch
      simp only [heq]
      exact .register haction hload hkey hagenda
    | after ms => exact .register haction hload hkey (.refl _)
    | never => exact .register haction hload hkey (.refl _)

/-- In a calm store a dispatched batch is complete at once. -/
theorem exists_fetches (hcalm : s.world.store.IsCalm) (hlies : db.LiesIn s.world.store.tables)
    {model : String} (hknown : (Fields.get? s.loader.pending model).isSome →
      ∃ table, db.resolver.table model = .ok table) {batch : LoadBatch}
    {loader : Loader} (hdispatch : s.loader.dispatch? model = some (batch, loader)) :
    ∃ (found : Except Fault (Fields Item)) (world : World Memory),
      s.loader.Fetches db s.world.store.tables model (loader.complete batch found) ∧
      world.store = s.world.store ∧ world.places = s.world.places ∧
      (db.loadBatch batch).run Memory.receive s.world = (found, world) ∧
      (db.loadBatch batch).runToWait Memory.receive s.world = (.inl found, world) := by
  obtain ⟨entries, hpending, hpair⟩ := Option.map_eq_some_iff.mp hdispatch
  obtain ⟨rfl, rfl⟩ := Prod.mk.inj hpair
  obtain ⟨table, htable⟩ := hknown (hpending ▸ rfl)
  obtain ⟨t, ht, hmodel⟩ := hlies model table htable
  obtain ⟨world, hstore, hplaces, hrun, hfetch⟩ := Database.exists_run_loadBatch
    ⟨model, entries⟩ hcalm htable hmodel.primaryKey ht (w := s.world) rfl
  exact ⟨_, world, ⟨rfl, entries, t, hpending, hmodel, rfl⟩, hstore, hplaces, hrun, hfetch⟩

theorem happens_dispatch (hcalm : s.world.store.IsCalm) (hlies : db.LiesIn s.world.store.tables)
    {load : Load} (hknown : (Fields.get? s.loader.pending load.model).isSome →
      ∃ table, db.resolver.table load.model = .ok table)
    (haction : e.action = .dispatch) (hload : loads[e.load]? = some load) :
    Happens db s.world.store.tables tick loads s e
      (s.dispatch db Memory.receive e load.model) := by
  unfold dispatch
  cases hdispatch : s.loader.dispatch? load.model with
  | none => exact .dispatch haction hload (Option.map_eq_none_iff.mp hdispatch)
  | some taken =>
    obtain ⟨batch, loader⟩ := taken
    obtain ⟨found, world, hfetches, hstore, hplaces, -, hfetch⟩ :=
      exists_fetches hcalm hlies hknown hdispatch
    obtain ⟨called, waiting, agenda, hcalled, hwaiting, hagenda, heq⟩ :=
      exists_call_eq { s with world, loader := loader.complete batch found } (s.turnToHear e)
    simp only [proceed, hfetch]
    rw [show turnToHear { s with world, loader := loader.complete batch found } e = s.turnToHear e
      from rfl, heq]
    exact .fetch haction hload hfetches hstore hplaces hcalled hwaiting (hagenda.cons _)

/-- In a calm store a flush is that of a single model, or there is nothing to flush. -/
theorem flush_cases (hcalm : s.world.store.IsCalm) (hlies : db.LiesIn s.world.store.tables)
    (model : String) (hknown : (Fields.get? s.loader.pending model).isSome →
      ∃ table, db.resolver.table model = .ok table) :
    Fields.get? s.loader.pending model = none ∧ s.flush db Memory.receive model = s ∨
    ∃ (world : World Memory) (loader : Loader), world.store = s.world.store ∧
      world.places = s.world.places ∧
      s.loader.Fetches db s.world.store.tables model loader ∧
      s.flush db Memory.receive model = { s with world, loader } := by
  unfold flush
  cases hdispatch : s.loader.dispatch? model with
  | none => exact .inl ⟨Option.map_eq_none_iff.mp hdispatch, rfl⟩
  | some taken =>
    obtain ⟨batch, loader⟩ := taken
    obtain ⟨found, world, hfetches, hstore, hplaces, hrun, -⟩ :=
      exists_fetches hcalm hlies hknown hdispatch
    simp only [hrun]
    exact .inr ⟨world, _, hstore, hplaces, hfetches, rfl⟩

theorem happens_collect (haction : e.action = .collect) :
    Happens db tables tick loads s e (s.collect e) := by
  unfold collect
  split
  · rename_i hplaces
    exact haction ▸ happens_giveWay hplaces
  · rename_i hplaces
    split
    · rename_i hknown
      exact .collect hplaces haction hknown
    · rename_i hunknown
      exact .await hplaces haction (Bool.eq_false_iff.mpr hunknown)

theorem happens_wait {instant : Nat} {next : LoadAction} (haction : e.action = .wait instant next) :
    Happens db tables tick loads s e (s.wait e instant next) := by
  unfold wait
  split
  · rename_i hplaces
    exact haction ▸ happens_giveWay hplaces
  · rename_i hplaces
    split
    · rename_i htime
      obtain ⟨agenda, hagenda, heq⟩ :=
        s.exists_note_eq { e with time := instant, turn := 0, action := .wait instant next }
      rw [sleep, heq]
      exact .sleep hplaces haction htime (haction ▸ hagenda)
    · rename_i htime
      exact .wake hplaces haction (Nat.not_lt.mp htime)

/-- What an event does in a calm store. -/
theorem happens_perform (hcalm : s.world.store.IsCalm) (hlies : db.LiesIn s.world.store.tables)
    (hpending : ∀ load ∈ loads, (Fields.get? s.loader.pending load.model).isSome →
      ∃ table, db.resolver.table load.model = .ok table)
    (hresume : e.action.stage ≠ .resume) :
    Happens db s.world.store.tables tick loads s e (s.perform db Memory.receive tick loads e) := by
  unfold perform
  cases haction : e.action with
  | register =>
    cases hload : loads[e.load]? with
    | none => exact .nothing (.inl haction) hload
    | some load => exact happens_register haction hload
  | dispatch =>
    cases hload : loads[e.load]? with
    | none => exact .nothing (.inr haction) hload
    | some load =>
      exact happens_dispatch hcalm hlies (hpending load (List.mem_of_getElem? hload)) haction hload
  | resume batch rest => exact absurd (haction ▸ rfl) hresume
  | collect => cases loads[e.load]? <;> exact happens_collect haction
  | wait instant next => cases loads[e.load]? <;> exact happens_wait haction

end Loads

end KeyedQuery
