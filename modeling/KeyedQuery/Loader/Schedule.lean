import KeyedQuery.Loader.Fetch

/-!
# Loads on a clock

Several loads of one loader, run next to each other. Each load starts at its time, registers its
key, lets a tick pass, and then dispatches whatever is pending for its model; a batch that has to
wait before it asks the store again gives way to the other loads. Nothing takes time but starting,
ticks and waits, so the course of events is fixed: an `Agenda` holds what is going to happen, in
the order of time, then of turns within one instant.

Within one turn a few loads go by their numbers. Where more than `Loads.fewAtMost` run with ticks,
the order is that of a queue: loads that waited for the same instant come back as they left, and
loads that gave way for a turn come back the last one first.

A turn has `World.placesPerTurn` places. A load takes one when it comes back from a wait and one
when it takes its outcome; while none is free, a load that is about to wait, to come back or to take
its outcome gives way for a turn. The loads come into a turn that is under way, and have what it has
left. Those that do not queue are gone through once more before it ends, so their second turn has
what the first one left. What the last turn has left is there for whatever comes after the loads.

A loader without ticks dispatches nothing by itself. Its models are dispatched one after another
once all loads have registered, and the loads take their outcomes in their second turn.
-/

namespace KeyedQuery

/-- What passes between registering a key and dispatching its model. -/
inductive Tick where
  /-- One turn of all loads that are ready at the same instant. -/
  | turn
  /-- Some milliseconds. -/
  | after (ms : Nat)
  /-- No dispatch follows. -/
  | never
deriving DecidableEq

/-- A load and when it starts. -/
structure Load where
  /-- The model. -/
  model : String
  /-- The key asked for. -/
  asked : LoadKey
  /-- The milliseconds that it waits before it starts, if it waits at all. -/
  start? : Option Nat := none

/-- What a load does next. -/
inductive LoadAction where
  /-- Check and register its key. -/
  | register
  /-- Dispatch its model. -/
  | dispatch
  /-- Go on with a batch that it dispatched. -/
  | resume (batch : LoadBatch) (rest : Dialogue (Except Fault (Fields Item)))
  /-- Take its outcome. -/
  | collect
  /-- Wait for an instant, and then do something. -/
  | wait (instant : Nat) (next : LoadAction)

/-- Something that is going to happen. -/
structure Event where
  /-- The instant, in milliseconds. -/
  time : Nat
  /-- The turn within the instant. -/
  turn : Nat
  /-- The load, by its number. -/
  load : Nat
  /-- What it does. -/
  action : LoadAction

namespace Event

/-- One event belongs to an earlier turn than another. -/
def isEarlier (a b : Event) : Bool :=
  a.time < b.time || (a.time = b.time && a.turn < b.turn)

/-- One event goes ahead of another where loads go by their numbers. -/
def before (a b : Event) : Bool :=
  a.isEarlier b || (!b.isEarlier a && a.load < b.load)

/-- The event belongs to the very first turn. -/
def isFirst (e : Event) : Bool :=
  e.time = 0 && e.turn = 0

end Event

/-- What is going to happen, in order. -/
abbrev Agenda := List Event

namespace Agenda

/-- Note an event behind those that go ahead of it. -/
def insertBy (ahead : Event → Event → Bool) (e : Event) : Agenda → Agenda
  | [] => [e]
  | f :: rest => if ahead f e then f :: insertBy ahead e rest else e :: f :: rest

/-- Note an event by the number of its load among those of its turn. -/
def insert (e : Event) (agenda : Agenda) : Agenda :=
  agenda.insertBy Event.before e

/-- Note an event as the first of its turn. -/
def insertFirst (e : Event) (agenda : Agenda) : Agenda :=
  agenda.insertBy Event.isEarlier e

/-- Note an event as the last of its turn. -/
def insertLast (e : Event) (agenda : Agenda) : Agenda :=
  agenda.insertBy (fun a b => !b.isEarlier a) e

end Agenda

/-- Loads under way. -/
structure Loads (σ : Type) where
  /-- The loader. -/
  loader : Loader
  /-- The store with its record. -/
  world : World σ
  /-- What is going to happen. -/
  agenda : Agenda
  /-- The loads that have come for their outcome before it was known. -/
  waiting : List Nat := []
  /-- The loads queue. -/
  queued : Bool
  /-- The time of the last event. -/
  clock : Nat := 0
  /-- The turn of the last event. -/
  turn : Nat := 0

namespace Loads

variable {σ : Type}

/-- So many loads go by their numbers; more of them queue if they have ticks. -/
def fewAtMost : Nat := 30

/-- Loads that have not started. -/
def ofList (tick : Tick) (loads : List Load) (world : World σ) : Loads σ where
  loader := {}
  world
  agenda := loads.mapIdx fun i load =>
    ⟨0, 0, i, (load.start?.map (.wait · .register)).getD .register⟩
  queued := tick ≠ .never && fewAtMost < loads.length

/-- Note what the load of an event does at once. -/
def goOn (s : Loads σ) (e : Event) (action : LoadAction) : Loads σ :=
  { s with agenda := { e with action } :: s.agenda }

/-- Note what the load of an event does in the next turn of the same instant. -/
def giveWay (s : Loads σ) (e : Event) (action : LoadAction) : Loads σ :=
  let next := { e with turn := e.turn + 1, action }
  { s with agenda := if s.queued then s.agenda.insertFirst next else s.agenda.insert next }

/-- Note an event behind those of its turn that it has to let go first. -/
def note (s : Loads σ) (e : Event) : Loads σ :=
  { s with agenda := if s.queued then s.agenda.insertLast e else s.agenda.insert e }

/-- Note what the load of an event does at a later instant. -/
def sleep (s : Loads σ) (e : Event) (instant : Nat) (action : LoadAction) : Loads σ :=
  s.note { e with time := instant, turn := 0, action }

/-- Call the loads whose outcome has become known, each to some turn of the present instant. -/
def call (s : Loads σ) (turnOf : Nat → Nat) : Loads σ :=
  let (called, waiting) := s.waiting.partition fun load => (s.loader.outcome? load).isSome
  called.foldl (fun s load => s.note ⟨s.clock, turnOf load, load, .collect⟩) { s with waiting }

/-- The turn in which another load hears of what the load of an event has done: the same one if it
is still to come in that turn, which in a queue it always is. -/
def turnToHear (s : Loads σ) (e : Event) (load : Nat) : Nat :=
  if s.queued || e.load < load then e.turn else e.turn + 1

/-- Take a place of the present turn. -/
def takePlace (s : Loads σ) : Loads σ :=
  { s with world := { s.world with places := s.world.places - 1 } }

/-- Register the key of a load, and note its dispatch behind the tick. -/
def register (db : Database) (tick : Tick) (s : Loads σ) (e : Event) (load : Load) : Loads σ :=
  match db.loadKey load.model load.asked with
  | .error fault => { s with loader := s.loader.refuse e.load fault }
  | .ok key =>
    let s := { s with loader := s.loader.register load.model e.load key }
    match tick with
    | .turn => s.giveWay e .dispatch
    | .after ms => s.goOn e (.wait (e.time + ms) .dispatch)
    | .never => s.goOn e .collect

/-- Run a batch to its end or to its next wait. -/
def proceed (client : Client σ) (s : Loads σ) (e : Event) (batch : LoadBatch)
    (rest : Dialogue (Except Fault (Fields Item))) : Loads σ :=
  match rest.runToWait client s.world with
  | (.inl result, world) =>
    let s := { s with world, loader := s.loader.complete batch result }
    (s.call (s.turnToHear e)).goOn e .collect
  | (.inr (ms, rest), world) =>
    { s with world }.goOn e (.wait (e.time + ms) (.resume batch rest))

/-- Dispatch a model. -/
def dispatch (db : Database) (client : Client σ) (s : Loads σ) (e : Event) (model : String) :
    Loads σ :=
  match s.loader.dispatch? model with
  | some (batch, loader) => { s with loader }.proceed client e batch (db.loadBatch batch)
  | none => s.goOn e .collect

/-- Take the outcome of a load, or wait until it is known. -/
def collect (s : Loads σ) (e : Event) : Loads σ :=
  if s.world.places = 0 then s.giveWay e .collect
  else if (s.loader.outcome? e.load).isSome then s.takePlace
  else { s with waiting := s.waiting ++ [e.load] }

/-- Begin or end a wait for an instant. -/
def wait (s : Loads σ) (e : Event) (instant : Nat) (next : LoadAction) : Loads σ :=
  if s.world.places = 0 then s.giveWay e (.wait instant next)
  else if e.time < instant then s.sleep e instant (.wait instant next)
  else s.takePlace.goOn e next

/-- Let an event happen. -/
def perform (db : Database) (client : Client σ) (tick : Tick) (loads : List Load) (s : Loads σ)
    (e : Event) : Loads σ :=
  match loads[e.load]?, e.action with
  | some load, .register => s.register db tick e load
  | some load, .dispatch => s.dispatch db client e load.model
  | _, .resume batch rest => s.proceed client e batch rest
  | _, .collect => s.collect e
  | _, .wait instant next => s.wait e instant next
  | none, _ => s

/-- An event has the places that the last one has left: both are of one turn, or of the first two
turns of loads that do not queue. -/
def keepsPlaces (s : Loads σ) (e : Event) : Bool :=
  s.clock = e.time && (s.turn = e.turn || (!s.queued && e.time = 0 && e.turn = 1))

/-- Come to an event, the first of the agenda. -/
def advance (s : Loads σ) (e : Event) (rest : Agenda) : Loads σ :=
  let places := if s.keepsPlaces e then s.world.places else World.placesPerTurn
  { s with agenda := rest, clock := e.time, turn := e.turn, world := { s.world with places } }

/-- Let events happen in order while they satisfy a condition, up to a number of them. -/
def runWhile (db : Database) (client : Client σ) (tick : Tick) (loads : List Load)
    (going : Event → Bool) : Nat → Loads σ → Loads σ
  | 0, s => s
  | n + 1, s =>
    match s.agenda with
    | [] => s
    | e :: rest =>
      if going e then
        runWhile db client tick loads going n
          ((s.advance e rest).perform db client tick loads e)
      else
        s

/-- A number that the events of some loads do not exceed. Each load starts, registers and dispatches
once, with a wait before the first and the third, and comes for its outcome at most twice; a batch
has at most one wait for each repetition of each of its rounds; a wait is begun and ended. A turn
without a free place, which has brought other loads forward, puts off each load at most once. -/
def eventBound (db : Database) (loads : List Load) : Nat :=
  let attempts := db.config.retry.repetitions + 1
  loads.length * (8 + 3 * (loads.length * attempts * attempts)) * (loads.length + 1)

/-- Dispatch a model and let nothing else happen until its batch is complete. -/
def flush (db : Database) (client : Client σ) (s : Loads σ) (model : String) : Loads σ :=
  match s.loader.dispatch? model with
  | some (batch, loader) =>
    let (result, world) := (db.loadBatch batch).run client s.world
    { s with world, loader := loader.complete batch result }
  | none => s

/-- Dispatch every model that has something pending, one after another, and call the loads to the
next turn. -/
def flushAll (db : Database) (client : Client σ) (s : Loads σ) : Loads σ :=
  ((Fields.names s.loader.pending).foldl (flush db client) s).call fun _ => s.turn + 1

end Loads

/-- How some loads went. -/
structure LoadReport (σ : Type) where
  /-- The outcomes of the loads; nothing for a load that is still waiting. -/
  outcomes : List (Option LoadOutcome)
  /-- The keys that were waiting after the first turn. -/
  pendingBefore : Nat
  /-- The keys that are waiting at the end. -/
  pendingAfter : Nat
  /-- The store with its record; the time that passed is noted as a wait. -/
  world : World σ

/-- Run loads of a new loader next to each other. -/
def Database.runLoads {σ : Type} (db : Database) (client : Client σ) (tick : Tick)
    (loads : List Load) (world : World σ) : LoadReport σ :=
  let bound := Loads.eventBound db loads
  let registered :=
    (Loads.ofList tick loads world).runWhile db client tick loads Event.isFirst bound
  let flushed := if tick = .never then registered.flushAll db client else registered
  let s := flushed.runWhile db client tick loads (fun _ => true) bound
  { outcomes := (List.range loads.length).map s.loader.outcome?
    pendingBefore := registered.loader.pendingKeys
    pendingAfter := s.loader.pendingKeys
    world := s.world.noteWait s.clock }

end KeyedQuery
