import KeyedQuery.Proofs.Loader.Filing
import KeyedQuery.Proofs.Preconditions

/-!
# Loads that are refused

A load checks its model and its key before it waits for anything. If it is refused, it ends in the very event
in which it would have registered, and the store receives nothing in it. There is no other way for a load to
end with a fault about a precondition (`Loads.Reaches.endsAtOnce`): a batch is fetched only for a model of
which somebody has passed the checks (`Database.Awaits`), and so it comes back with other faults at most.
Loads none of which passes send nothing at all (`Loads.Reaches.requests_eq`).
-/

namespace KeyedQuery

variable {σ : Type} {db : Database} {client : Client σ} {tick : Tick} {loads : List Load}
  {s next last : Loads σ} {e : Event} {batch : LoadBatch} {model : String}

namespace Database

/-- A load that has passed its checks waits for rows of the model. -/
def Awaits (db : Database) (loads : List Load) (model : String) : Prop :=
  ∃ load ∈ loads, load.model = model ∧ ∃ key, db.loadKey load.model load.asked = .ok key

/-- To fetch a batch is past all checks, since they have been passed before. -/
theorem Awaits.isPast_loadBatch (h : db.Awaits loads batch.model) :
    Run.IsPast (ExceptT.mk (db.loadBatch batch)) := by
  obtain ⟨load, -, hmodel, key, hkey⟩ := h
  obtain ⟨table, htable⟩ := exists_table_of_loadKey hkey
  obtain ⟨keys, hkeys, -⟩ := exists_of_bind_eq_ok hkey
  have hfetch : Run.IsPast (db.fetchBatch batch) := by
    unfold fetchBatch
    rw [← hmodel, htable, hkeys]
    exact (db.config.retry.isPast_batchGet _ _).bind fun _ => .pure _
  exact Dialogue.KeepsTo.bind hfetch fun result hresult => hresult

end Database

/-- If the action goes on with a batch, somebody waits for it, and it is past all checks. -/
def LoadAction.IsAwaited (db : Database) (loads : List Load) : LoadAction → Prop
  | .resume batch rest => db.Awaits loads batch.model ∧ Run.IsPast (ExceptT.mk rest)
  | .wait _ next => next.IsAwaited db loads
  | .register | .dispatch | .collect => True

namespace Loads

/-- Somebody waits for whatever is pending or on its way. -/
structure Checked (db : Database) (loads : List Load) (s : Loads σ) : Prop where
  pending : ∀ model, (Fields.get? s.loader.pending model).isSome → db.Awaits loads model
  agenda : ∀ e ∈ s.agenda, e.action.IsAwaited db loads

/-- What becomes known from one state to the other is no fault about a precondition, and the store receives
something only if somebody waits. -/
structure GoesOn (db : Database) (loads : List Load) (s next : Loads σ) : Prop where
  checked : next.Checked db loads
  outcomes : ∃ more, next.loader.outcomes = s.loader.outcomes ++ more ∧
    ∀ i fault, (i, .error fault) ∈ more → ¬fault.IsPrecondition
  requests : next.world.requests = s.world.requests ∨ ∃ model, db.Awaits loads model

/-- The load of an event is refused by its own checks, and nothing else happens. -/
def Refuses (db : Database) (loads : List Load) (s : Loads σ) (e : Event) (next : Loads σ) : Prop :=
  e.action = .register ∧ ∃ load fault, loads[e.load]? = some load ∧
    db.loadKey load.model load.asked = .error fault ∧
      next = { s with loader := s.loader.refuse e.load fault }

theorem checked_ofList (db : Database) (tick : Tick) (loads : List Load) (w : World σ) :
    (ofList tick loads w).Checked db loads where
  pending := nofun
  agenda := by
    intro e he
    obtain ⟨i, hi, rfl⟩ := List.mem_mapIdx.mp he
    cases loads[i].start? <;> trivial

namespace Checked

/-- What is noted or gets pending has to be awaited. -/
theorem extend (h : s.Checked db loads)
    (hpending : ∀ model, (Fields.get? next.loader.pending model).isSome →
      (Fields.get? s.loader.pending model).isSome ∨ db.Awaits loads model)
    (hagenda : ∀ e ∈ next.agenda, e ∈ s.agenda ∨ e.action.IsAwaited db loads) :
    next.Checked db loads where
  pending := fun model hmodel => (hpending model hmodel).elim (h.pending model) id
  agenda := fun e he => (hagenda e he).elim (h.agenda e) id

/-- Nothing becomes known where the loader stays as it is. -/
theorem noting (h : s.Checked db loads) (hloader : next.loader = s.loader)
    (hrequests : next.world.requests = s.world.requests)
    (hagenda : ∀ e ∈ next.agenda, e ∈ s.agenda ∨ e.action.IsAwaited db loads) :
    s.GoesOn db loads next where
  checked := h.extend (fun model hmodel => .inl (hloader ▸ hmodel)) hagenda
  outcomes := ⟨[], by rw [hloader, List.append_nil], nofun⟩
  requests := .inl hrequests

/-- Nor where an event is noted. -/
theorem noted (h : s.Checked db loads) (hloader : next.loader = s.loader)
    (hrequests : next.world.requests = s.world.requests) (hagenda : next.agenda.Perm (e :: s.agenda))
    (haction : e.action.IsAwaited db loads) : s.GoesOn db loads next := by
  refine h.noting hloader hrequests fun f hf => ?_
  rcases List.mem_cons.mp (hagenda.subset hf) with rfl | hold
  · exact .inr haction
  · exact .inl hold

theorem goOn (h : s.Checked db loads) {action : LoadAction} (haction : action.IsAwaited db loads) :
    s.GoesOn db loads (s.goOn e action) :=
  h.noted rfl rfl (.refl _) haction

theorem giveWay (h : s.Checked db loads) {action : LoadAction}
    (haction : action.IsAwaited db loads) : s.GoesOn db loads (s.giveWay e action) :=
  h.noted rfl rfl (s.giveWay_agenda_perm e action) haction

theorem note (h : s.Checked db loads) (haction : e.action.IsAwaited db loads) :
    s.GoesOn db loads (s.note e) :=
  h.noted rfl rfl (s.note_agenda_perm e) haction

theorem call (h : s.Checked db loads) (turnOf : Nat → Nat) : s.GoesOn db loads (s.call turnOf) := by
  obtain ⟨called, waiting, agenda, -, -, hagenda, heq⟩ := s.exists_call_eq turnOf
  rw [heq]
  refine h.noting rfl rfl fun e he => ?_
  rcases List.mem_append.mp (hagenda.subset he) with hcalled | hold
  · obtain ⟨i, -, rfl⟩ := List.mem_map.mp hcalled
    exact .inr trivial
  · exact .inl hold

end Checked

namespace GoesOn

theorem trans (h : s.GoesOn db loads next) (h' : next.GoesOn db loads last) :
    s.GoesOn db loads last where
  checked := h'.checked
  outcomes := by
    obtain ⟨more, hmore, hnone⟩ := h.outcomes
    obtain ⟨more', hmore', hnone'⟩ := h'.outcomes
    refine ⟨more ++ more', by rw [hmore', hmore, List.append_assoc], fun i fault hmem => ?_⟩
    exact (List.mem_append.mp hmem).elim (hnone i fault) (hnone' i fault)
  requests := h'.requests.elim (fun heq => h.requests.imp_left heq.trans) .inr

end GoesOn

namespace Checked

/-! ## Batches -/

/-- A batch that somebody waits for comes back with no fault about a precondition. -/
theorem complete (h : s.Checked db loads) (hawaits : db.Awaits loads batch.model) (world : World σ)
    {result : Except Fault (Fields Item)} (hresult : FailsPast result) :
    s.GoesOn db loads { s with world, loader := s.loader.complete batch result } where
  checked := h.extend (fun _ hmodel => .inl hmodel) fun _ he => .inl he
  outcomes := by
    refine ⟨Loader.outcomesOf batch result, rfl, fun i fault hmem => ?_⟩
    obtain ⟨entry, -, hentry⟩ := List.mem_flatMap.mp hmem
    obtain ⟨waiter, -, hpair⟩ := List.mem_map.mp hentry
    cases result with
    | ok found => cases (Prod.mk.inj hpair).2
    | error first =>
      obtain rfl : first = fault := Except.error.inj (Prod.mk.inj hpair).2
      exact hresult first rfl
  requests := .inr ⟨batch.model, hawaits⟩

theorem proceed (h : s.Checked db loads) (hawaits : db.Awaits loads batch.model)
    {rest : Dialogue (Except Fault (Fields Item))} (hrest : Run.IsPast (ExceptT.mk rest)) :
    s.GoesOn db loads (s.proceed client e batch rest) := by
  have hrun := Dialogue.KeepsTo.runToWait (p := rest) hrest client s.world
  unfold Loads.proceed
  generalize rest.runToWait client s.world = ended at hrun ⊢
  obtain ⟨result | ⟨ms, rest⟩, world⟩ := ended
  · have hcomplete := h.complete hawaits world hrun
    have hcall := hcomplete.checked.call
      (turnToHear { s with world, loader := s.loader.complete batch result } e)
    exact hcomplete.trans (hcall.trans (hcall.checked.goOn trivial))
  · have hworld : s.GoesOn db loads { s with world } :=
      ⟨⟨h.pending, h.agenda⟩, ⟨[], (List.append_nil _).symm, nofun⟩, .inr ⟨_, hawaits⟩⟩
    exact hworld.trans (hworld.checked.goOn ⟨hawaits, hrun⟩)

/-- What is dispatched was pending. -/
theorem dispatched (h : s.Checked db loads) {loader : Loader}
    (hdispatch : s.loader.dispatch? model = some (batch, loader)) :
    s.GoesOn db loads { s with loader } ∧ db.Awaits loads batch.model := by
  obtain ⟨entries, hentries, hpair⟩ := Option.map_eq_some_iff.mp hdispatch
  obtain ⟨rfl, rfl⟩ := Prod.mk.inj hpair
  refine ⟨⟨h.extend (fun other hother => .inl ?_) fun _ he => .inl he,
    ⟨[], (List.append_nil _).symm, nofun⟩, .inl rfl⟩, h.pending model (hentries ▸ rfl)⟩
  simp only [Fields.get?_erase] at hother
  split at hother
  · cases hother
  · exact hother

theorem flush (h : s.Checked db loads) (model : String) :
    s.GoesOn db loads (s.flush db client model) := by
  unfold Loads.flush
  cases hdispatch : s.loader.dispatch? model with
  | none => exact h.noting rfl rfl fun _ he => .inl he
  | some taken =>
    obtain ⟨batch, loader⟩ := taken
    obtain ⟨hdispatched, hawaits⟩ := h.dispatched hdispatch
    have hresult := Dialogue.KeepsTo.result hawaits.isPast_loadBatch client s.world
    exact hdispatched.trans (hdispatched.checked.complete hawaits _ hresult)

/-! ## Events -/

/-- A load that is not refused is awaited from then on. -/
theorem register (h : s.Checked db loads) {load : Load} (haction : e.action = .register)
    (hload : loads[e.load]? = some load) :
    s.GoesOn db loads (s.register db tick e load) ∨
      s.Refuses db loads e (s.register db tick e load) := by
  unfold Loads.register
  cases hkey : db.loadKey load.model load.asked with
  | error fault => exact .inr ⟨haction, load, fault, hload, hkey, rfl⟩
  | ok key =>
    have hregister : s.GoesOn db loads
        { s with loader := s.loader.register load.model e.load key } := by
      refine ⟨h.extend (fun model hmodel => ?_) fun _ he => .inl he,
        ⟨[], (List.append_nil _).symm, nofun⟩, .inl rfl⟩
      simp only [Loader.register, Fields.get?_insert] at hmodel
      split at hmodel
      · rename_i heq
        exact .inr ⟨load, List.mem_of_getElem? hload, heq, key, hkey⟩
      · exact .inl hmodel
    refine .inl ?_
    cases tick with
    | turn => exact hregister.trans (hregister.checked.giveWay trivial)
    | after ms => exact hregister.trans (hregister.checked.goOn trivial)
    | never => exact hregister.trans (hregister.checked.goOn trivial)

theorem dispatch (h : s.Checked db loads) (model : String) :
    s.GoesOn db loads (s.dispatch db client e model) := by
  unfold Loads.dispatch
  cases hdispatch : s.loader.dispatch? model with
  | none => exact h.goOn trivial
  | some taken =>
    obtain ⟨batch, loader⟩ := taken
    obtain ⟨hdispatched, hawaits⟩ := h.dispatched hdispatch
    exact hdispatched.trans (hdispatched.checked.proceed hawaits hawaits.isPast_loadBatch)

theorem collect (h : s.Checked db loads) : s.GoesOn db loads (s.collect e) := by
  unfold Loads.collect
  split
  · exact h.giveWay trivial
  · split
    · exact h.noting rfl rfl fun _ he => .inl he
    · exact h.noting rfl rfl fun _ he => .inl he

theorem wait (h : s.Checked db loads) {instant : Nat} {action : LoadAction}
    (haction : action.IsAwaited db loads) : s.GoesOn db loads (s.wait e instant action) := by
  unfold Loads.wait
  split
  · exact h.giveWay haction
  · split
    · exact h.note haction
    · have hplace : s.GoesOn db loads s.takePlace := h.noting rfl rfl fun _ he => .inl he
      exact hplace.trans (hplace.checked.goOn haction)

/-- An event brings no fault about a precondition, unless it refuses its load. -/
theorem perform (h : s.Checked db loads) (he : e.action.IsAwaited db loads) :
    s.GoesOn db loads (s.perform db client tick loads e) ∨
      s.Refuses db loads e (s.perform db client tick loads e) := by
  have hnothing : s.GoesOn db loads s := h.noting rfl rfl fun _ he => .inl he
  unfold Loads.perform
  cases haction : e.action with
  | register =>
    cases hload : loads[e.load]? with
    | none => exact .inl hnothing
    | some load => exact h.register haction hload
  | dispatch =>
    cases loads[e.load]? with
    | none => exact .inl hnothing
    | some load => exact .inl (h.dispatch load.model)
  | resume batch rest =>
    rw [haction] at he
    cases loads[e.load]? <;> exact .inl (h.proceed he.1 he.2)
  | collect => cases loads[e.load]? <;> exact .inl h.collect
  | wait instant next =>
    rw [haction] at he
    cases loads[e.load]? <;> exact .inl (h.wait he)

end Checked

/-! ## Runs -/

/-- What may happen next in a run: the first event of the agenda, a flush, or a call to those who wait. -/
inductive Moves (db : Database) (client : Client σ) (tick : Tick) (loads : List Load) (s : Loads σ) :
    Loads σ → Prop where
  | event {e : Event} {rest : Agenda} (hagenda : s.agenda = e :: rest) :
      Moves db client tick loads s ((s.advance e rest).perform db client tick loads e)
  | flush (model : String) : Moves db client tick loads s (s.flush db client model)
  | call (turnOf : Nat → Nat) : Moves db client tick loads s (s.call turnOf)

/-- A run comes from one state to another. -/
def Reaches (db : Database) (client : Client σ) (tick : Tick) (loads : List Load) :
    Loads σ → Loads σ → Prop :=
  Relation.ReflTransGen (Moves db client tick loads)

/-- In a run from a state the whole call of a load takes place in a single event: the load comes to register its
key, and it has ended with the fault when the event is over. The store receives nothing in between. -/
def EndsAtOnce (db : Database) (client : Client σ) (tick : Tick) (loads : List Load) (start : Loads σ)
    (i : Nat) (fault : Fault) : Prop :=
  ∃ (s : Loads σ) (e : Event) (rest : Agenda), Reaches db client tick loads start s ∧
    s.agenda = e :: rest ∧ e.load = i ∧ e.action = .register ∧ s.loader.outcome? i = none ∧
    let next := (s.advance e rest).perform db client tick loads e
    next.loader.outcome? i = some (.error fault) ∧ next.world.requests = s.world.requests

theorem reaches_runWhile (db : Database) (client : Client σ) (tick : Tick) (loads : List Load)
    (going : Event → Bool) (n : Nat) (s : Loads σ) :
    Reaches db client tick loads s (s.runWhile db client tick loads going n) := by
  induction n generalizing s with
  | zero => exact .refl
  | succ n ih =>
    unfold runWhile
    cases hagenda : s.agenda with
    | nil => exact .refl
    | cons e rest =>
      dsimp only
      split
      · exact .head (.event hagenda) (ih _)
      · exact .refl

theorem reaches_flushAll (db : Database) (client : Client σ) (tick : Tick) (loads : List Load)
    (s : Loads σ) : Reaches db client tick loads s (s.flushAll db client) := by
  have hflushes : ∀ (models : List String) (s : Loads σ),
      Reaches db client tick loads s (models.foldl (flush db client) s) := by
    intro models
    induction models with
    | nil => exact fun _ => .refl
    | cons model models ih => exact fun s => .head (.flush model) (ih _)
  exact (hflushes _ s).tail (.call _)

theorem Checked.moves (h : s.Checked db loads) (hmove : Moves db client tick loads s next) :
    s.GoesOn db loads next ∨ ∃ e rest, s.agenda = e :: rest ∧
      next = (s.advance e rest).perform db client tick loads e ∧
      (s.advance e rest).Refuses db loads e next := by
  cases hmove with
  | @event e rest hagenda =>
    have hadvance : s.GoesOn db loads (s.advance e rest) :=
      h.noting rfl rfl fun _ he => .inl (hagenda ▸ List.mem_cons_of_mem e he)
    rcases hadvance.checked.perform (h.agenda e (hagenda ▸ List.mem_cons_self)) with hgoes | hrefuses
    · exact .inl (hadvance.trans hgoes)
    · exact .inr ⟨e, rest, hagenda, rfl, hrefuses⟩
  | flush model => exact .inl (h.flush model)
  | call turnOf => exact .inl (h.call turnOf)

namespace Reaches

theorem checked (hs : s.Checked db loads) (h : Reaches db client tick loads s last) :
    last.Checked db loads := by
  induction h with
  | refl => exact hs
  | tail _ hmove ih =>
    rcases ih.moves hmove with hgoes | ⟨e, rest, hagenda, -, -, load, fault, -, -, rfl⟩
    · exact hgoes.checked
    · exact ⟨ih.pending, fun f hf => ih.agenda f (hagenda ▸ List.mem_cons_of_mem e hf)⟩

/-- Loads none of which passes its checks send nothing. -/
theorem requests_eq (hs : s.Checked db loads) (h : Reaches db client tick loads s last)
    (hnone : ∀ model, ¬db.Awaits loads model) : last.world.requests = s.world.requests := by
  induction h with
  | refl => rfl
  | tail hreach hmove ih =>
    rcases (checked hs hreach).moves hmove with hgoes | ⟨e, rest, -, -, -, load, fault, -, -, rfl⟩
    · exact (hgoes.requests.resolve_right fun ⟨model, hmodel⟩ => hnone model hmodel).trans ih
    · exact ih

/-- A load ends with a fault about a precondition only by its own checks, and at once. -/
theorem endsAtOnce (hs : s.Checked db loads) (hstart : s.loader.outcomes = [])
    (h : Reaches db client tick loads s last) {i : Nat} {fault : Fault}
    (hend : last.loader.outcome? i = some (.error fault)) (hprecondition : fault.IsPrecondition) :
    (∃ load, loads[i]? = some load ∧ db.loadKey load.model load.asked = .error fault) ∧
      EndsAtOnce db client tick loads s i fault := by
  induction h with
  | refl =>
    rw [Loader.outcome?, hstart] at hend
    cases hend
  | tail hreach hmove ih =>
    rcases (checked hs hreach).moves hmove with hgoes |
      ⟨e, rest, hagenda, hnext, haction, load, first, hload, hkey, heq⟩
    · obtain ⟨more, hmore, hnone⟩ := hgoes.outcomes
      rcases Loader.outcome?_cases hmore hend with hbefore | ⟨-, hnew⟩
      · exact ih hbefore
      · exact absurd hprecondition (hnone i fault hnew)
    · have hmore := congrArg (fun s => s.loader.outcomes) heq
      rcases Loader.outcome?_cases hmore hend with hbefore | ⟨hbefore, hnew⟩
      · exact ih hbefore
      · obtain ⟨rfl, hfault⟩ := Prod.mk.inj (List.mem_singleton.mp hnew)
        obtain rfl := Except.error.inj hfault
        exact ⟨⟨load, hload, hkey⟩, _, e, rest, hreach, hagenda, rfl, haction, hbefore,
          hnext ▸ hend, hnext ▸ congrArg (fun s => s.world.requests) heq⟩

end Reaches

end Loads

/-- What loads end with when they run next to each other, a state that their run reaches has. -/
theorem Database.exists_reaches_runLoads (db : Database) (client : Client σ) (tick : Tick)
    (loads : List Load) (w : World σ) :
    ∃ last, Loads.Reaches db client tick loads (.ofList tick loads w) last ∧
      (db.runLoads client tick loads w).outcomes =
        (List.range loads.length).map last.loader.outcome? ∧
      (db.runLoads client tick loads w).world.requests = last.world.requests := by
  unfold runLoads
  extract_lets bound registered flushed last
  have hregistered : Loads.Reaches db client tick loads (.ofList tick loads w) registered :=
    Loads.reaches_runWhile db client tick loads _ bound _
  have hflushed : Loads.Reaches db client tick loads registered flushed := by
    by_cases htick : tick = .never
    · have hcase : flushed = registered.flushAll db client := if_pos htick
      exact hcase ▸ Loads.reaches_flushAll db client tick loads registered
    · have hcase : flushed = registered := if_neg htick
      exact hcase ▸ .refl
  exact ⟨last, (hregistered.trans hflushed).trans (Loads.reaches_runWhile db client tick loads _ bound _),
    rfl, rfl⟩

end KeyedQuery
