import KeyedQuery.Stats
import KeyedQuery.Store.Request

/-!
# Dialogues

A `Dialogue` is a computation that sends requests to a store, waits, and counts events. It says
what is done next for every answer, and leaves open which store answers and what else happens
between two requests. `Dialogue.run` runs one alone against a store, given as a `Client`, and
records in a `World` what it did. `Dialogue.runToWait` runs one as far as it goes without waiting,
so that several can take turns.

A turn has `World.placesPerTurn` places, and each wait takes one when it ends. A wait that lasts
ends in a new turn, and so does a wait of nothing that finds no place. Dialogues that run alone show
nothing of this, but those that follow them share the turn in which they end.
-/

namespace KeyedQuery

/-- A computation that sends requests, waits and counts. -/
inductive Dialogue (α : Type) where
  /-- It ends with a result. -/
  | done (a : α)
  /-- It sends a request and goes on with the answer. -/
  | ask (r : Request) (next : Except StoreFault r.Answer → Dialogue α)
  /-- It waits for some milliseconds. -/
  | sleep (ms : Nat) (next : Dialogue α)
  /-- It adds to a counter. -/
  | tally (c : Counter) (n : UInt64) (next : Dialogue α)

namespace Dialogue

variable {α β γ σ : Type}

/-- One dialogue behind another. -/
protected def bind : Dialogue α → (α → Dialogue β) → Dialogue β
  | .done a, f => f a
  | .ask r next, f => .ask r fun answer => (next answer).bind f
  | .sleep ms next, f => .sleep ms (next.bind f)
  | .tally c n next, f => .tally c n (next.bind f)

instance : Monad Dialogue where
  pure := .done
  bind := Dialogue.bind

/-- Ending with a result is neutral on the right. -/
theorem bind_done (p : Dialogue α) : p.bind .done = p := by
  induction p with
  | done a => rfl
  | ask r next ih => exact congrArg (Dialogue.ask r) (funext ih)
  | sleep ms next ih => exact congrArg (Dialogue.sleep ms) ih
  | tally c n next ih => exact congrArg (Dialogue.tally c n) ih

/-- Sequencing is associative. -/
theorem bind_bind (p : Dialogue α) (f : α → Dialogue β) (g : β → Dialogue γ) :
    (p.bind f).bind g = p.bind fun a => (f a).bind g := by
  induction p with
  | done a => rfl
  | ask r next ih => exact congrArg (Dialogue.ask r) (funext ih)
  | sleep ms next ih => exact congrArg (Dialogue.sleep ms) ih
  | tally c n next ih => exact congrArg (Dialogue.tally c n) ih

instance : LawfulMonad Dialogue :=
  LawfulMonad.mk' Dialogue bind_done (fun _ _ => rfl) bind_bind

/-- Send a request. -/
def send (r : Request) : Dialogue (Except StoreFault r.Answer) :=
  .ask r .done

/-- Wait. -/
def wait (ms : Nat) : Dialogue Unit :=
  .sleep ms (.done ())

/-- Add to a counter. -/
def count (c : Counter) (n : UInt64) : Dialogue Unit :=
  .tally c n (.done ())

end Dialogue

/-! ## Running -/

/-- A store as seen by its users: its answer to a request, and what it is afterwards. -/
abbrev Client (σ : Type) := (r : Request) → σ → Except StoreFault r.Answer × σ

/-- The places of one turn. -/
def World.placesPerTurn : Nat := 128

/-- A store with the record of what has been done to it and with it. -/
structure World (σ : Type) where
  /-- The store. -/
  store : σ
  /-- The counters. -/
  stats : Stats := {}
  /-- The requests that the store received, in order. -/
  requests : List Request := []
  /-- The waits, in milliseconds, in order. -/
  waits : List Nat := []
  /-- The places that are free in the present turn. -/
  places : Nat := World.placesPerTurn

namespace World

variable {σ : Type}

/-- Send a request to the store. -/
def receive (client : Client σ) (w : World σ) (r : Request) :
    Except StoreFault r.Answer × World σ :=
  let (answer, store) := client r w.store
  (answer, { w with store, requests := w.requests ++ [r] })

/-- Note a wait. -/
def noteWait (w : World σ) (ms : Nat) : World σ :=
  { w with waits := w.waits ++ [ms] }

/-- Wait, and take a place at the end. -/
def sleep (w : World σ) (ms : Nat) : World σ :=
  let free := if ms = 0 ∧ 0 < w.places then w.places else placesPerTurn
  { w.noteWait ms with places := free - 1 }

/-- Add to a counter. -/
def count (w : World σ) (c : Counter) (n : UInt64) : World σ :=
  { w with stats := w.stats.add n c }

end World

/-- Run a dialogue alone to its end. -/
def Dialogue.run {α σ : Type} (client : Client σ) : Dialogue α → World σ → α × World σ
  | .done a, w => (a, w)
  | .ask r next, w =>
    let (answer, w) := w.receive client r
    (next answer).run client w
  | .sleep ms next, w => next.run client (w.sleep ms)
  | .tally c n next, w => next.run client (w.count c n)

/-- Run a dialogue to its end or to its first wait, with the length of the wait and what follows
it. -/
def Dialogue.runToWait {α σ : Type} (client : Client σ) :
    Dialogue α → World σ → (α ⊕ Nat × Dialogue α) × World σ
  | .done a, w => (.inl a, w)
  | .ask r next, w =>
    let (answer, w) := w.receive client r
    (next answer).runToWait client w
  | .sleep ms next, w => (.inr (ms, next), w)
  | .tally c n next, w => next.runToWait client (w.count c n)

/-- A dialogue that may end with a fault. -/
abbrev Run := ExceptT Fault Dialogue

namespace Run

variable {α : Type}

/-- A dialogue that cannot fail. -/
def ofDialogue (p : Dialogue α) : Run α :=
  ExceptT.lift p

/-- A result that may be a fault, without any request. -/
def ofExcept (e : Except Fault α) : Run α :=
  ExceptT.mk (pure e)

/-- Add to a counter. -/
def count (c : Counter) (n : UInt64) : Run Unit :=
  ofDialogue (Dialogue.count c n)

end Run

end KeyedQuery
