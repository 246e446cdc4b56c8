import KeyedQuery.Proofs.Dialogue
import Mathlib.Data.UInt

/-!
# Accounts of runs

What a dialogue does when it is run alone, in order: the requests that it sends with the answers that they
get, its waits, and what it counts. `Dialogue.account` is the list of these acts, with the result and the
store at the end. A run in several parts does what the parts do, one after the other
(`Run.account_bind_of_ok`), and the record that a run leaves in its world is read off its account
(`Dialogue.records_run`).
-/

namespace KeyedQuery

variable {α β σ : Type} {client : Client σ} {s s' : σ}

/-- A request with the answer that it got. -/
structure Exchange where
  /-- What was sent. -/
  request : Request
  /-- What came back. -/
  answer : Except StoreFault request.Answer

/-- One thing that a run does. -/
inductive Act where
  /-- It sends a request, and gets the answer. -/
  | exchange (x : Exchange)
  /-- It waits for some milliseconds. -/
  | wait (ms : Nat)
  /-- It adds to a counter. -/
  | count (c : Counter) (n : UInt64)

namespace Act

/-- The exchange, if the act is one. -/
def exchange? : Act → Option Exchange
  | .exchange x => some x
  | .wait _ | .count _ _ => none

/-- The request, if the act is an exchange. -/
def request? (act : Act) : Option Request :=
  act.exchange?.map Exchange.request

/-- The milliseconds, if the act is to wait. -/
def wait? : Act → Option Nat
  | .wait ms => some ms
  | .exchange _ | .count _ _ => none

/-- What the act adds to a counter. -/
def adds (c : Counter) : Act → UInt64
  | .count d n => if d = c then n else 0
  | .exchange _ | .wait _ => 0

/-- The act is a request that was answered with a fault. -/
def isFailure : Act → Bool
  | .exchange ⟨_, .error _⟩ => true
  | .exchange ⟨_, .ok _⟩ | .wait _ | .count _ _ => false

/-- A request is counted by its kind, sent and answered. -/
def sending (r : Request) (answer : Except StoreFault r.Answer) : List Act :=
  (r.counter?.map fun c => .count c 1).toList ++ [.exchange ⟨r, answer⟩]

theorem exchange_mem_sending (r : Request) (answer : Except StoreFault r.Answer) :
    .exchange ⟨r, answer⟩ ∈ sending r answer :=
  List.mem_append_right _ (List.mem_singleton.mpr rfl)

end Act

/-- What a run comes to, and what it did on the way. -/
structure Account (α σ : Type) where
  /-- What it ended with. -/
  result : α
  /-- What it did, in order. -/
  acts : List Act
  /-- The store at the end. -/
  store : σ

namespace Account

/-- The account of a run that follows on some acts. -/
def behind (before : List Act) (a : Account α σ) : Account α σ :=
  { a with acts := before ++ a.acts }

theorem behind_behind (before more : List Act) (a : Account α σ) :
    (a.behind more).behind before = a.behind (before ++ more) :=
  congrArg (Account.mk _ · _) (List.append_assoc before more a.acts).symm

/-- No request was answered with a fault. -/
def NoneFails (a : Account α σ) : Prop :=
  ∀ act ∈ a.acts, act.isFailure = false

instance (a : Account α σ) : Decidable a.NoneFails :=
  inferInstanceAs (Decidable (∀ act ∈ a.acts, act.isFailure = false))

theorem NoneFails.of_behind {before : List Act} {a : Account α σ} (h : (a.behind before).NoneFails) :
    a.NoneFails :=
  fun act hact => h act (List.mem_append_right before hact)

end Account

/-! ## Dialogues -/

namespace Dialogue

/-- Run a dialogue alone, and take note of what it does. -/
def account (client : Client σ) : Dialogue α → σ → Account α σ
  | .done a, s => ⟨a, [], s⟩
  | .ask r next, s =>
    let (answer, after) := client r s
    ((next answer).account client after).behind [.exchange ⟨r, answer⟩]
  | .sleep ms next, s => (next.account client s).behind [.wait ms]
  | .tally c n next, s => (next.account client s).behind [.count c n]

/-- One dialogue behind another does what both do. -/
theorem account_bind (p : Dialogue α) (f : α → Dialogue β) (s : σ) : (p >>= f).account client s =
    ((f (p.account client s).result).account client (p.account client s).store).behind
      (p.account client s).acts := by
  induction p generalizing s with
  | done a => rfl
  | ask r next ih => exact congrArg (Account.behind _) (ih _ _)
  | sleep ms next ih => exact congrArg (Account.behind _) (ih s)
  | tally c n next ih => exact congrArg (Account.behind _) (ih s)

end Dialogue

/-- What is recorded in a world that has seen some acts more. -/
structure World.Records (w : World σ) (acts : List Act) (w' : World σ) : Prop where
  requests : w'.requests = w.requests ++ acts.filterMap Act.request?
  waits : w'.waits = w.waits ++ acts.filterMap Act.wait?
  stats : ∀ c, w'.stats.get c = w.stats.get c + (acts.map (Act.adds c)).sum

namespace World.Records

variable {w w' : World σ} {acts : List Act}

theorem nil (w : World σ) : w.Records [] w where
  requests := (List.append_nil _).symm
  waits := (List.append_nil _).symm
  stats _ := (UInt64.add_zero _).symm

theorem exchange {r : Request} (h : (w.receive client r).2.Records acts w') :
    w.Records (.exchange ⟨r, (client r w.store).1⟩ :: acts) w' where
  requests := h.requests.trans (List.append_assoc _ _ _)
  waits := h.waits
  stats c := (h.stats c).trans (by simp [World.receive, Act.adds])

theorem wait {ms : Nat} (h : (w.sleep ms).Records acts w') : w.Records (.wait ms :: acts) w' where
  requests := h.requests
  waits := h.waits.trans (List.append_assoc _ _ _)
  stats c := (h.stats c).trans (by simp [World.sleep, World.noteWait, Act.adds])

theorem count {c : Counter} {n : UInt64} (h : (w.count c n).Records acts w') :
    w.Records (.count c n :: acts) w' where
  requests := h.requests
  waits := h.waits
  stats d := by
    rw [h.stats d, List.map_cons, List.sum_cons, ← UInt64.add_assoc]
    refine congrArg (· + _) ((Stats.get_add _ _ _ _).trans ?_)
    show _ = w.stats.get d + if c = d then n else 0
    split
    · rfl
    · exact (UInt64.add_zero _).symm

end World.Records

/-- The account of a run and the record in its world tell the same. -/
theorem Dialogue.records_run (client : Client σ) (p : Dialogue α) (w : World σ) :
    (p.run client w).1 = (p.account client w.store).result ∧
      (p.run client w).2.store = (p.account client w.store).store ∧
      w.Records (p.account client w.store).acts (p.run client w).2 := by
  induction p generalizing w with
  | done a => exact ⟨rfl, rfl, .nil w⟩
  | ask r next ih =>
    obtain ⟨hresult, hstore, hrecords⟩ := ih _ (w.receive client r).2
    exact ⟨hresult, hstore, hrecords.exchange⟩
  | sleep ms next ih =>
    obtain ⟨hresult, hstore, hrecords⟩ := ih (w.sleep ms)
    exact ⟨hresult, hstore, hrecords.wait⟩
  | tally c n next ih =>
    obtain ⟨hresult, hstore, hrecords⟩ := ih (w.count c n)
    exact ⟨hresult, hstore, hrecords.count⟩

/-! ## Dialogues that may fail -/

namespace Run

variable {p : Run α} {f : α → Run β} {a : α} {fault : Fault} {acts : List Act}

/-- Run a dialogue alone, and take note of what it does. -/
def account (client : Client σ) (p : Run α) (s : σ) : Account (Except Fault α) σ :=
  p.run.account client s

theorem account_pure (a : α) (s : σ) : (Pure.pure a : Run α).account client s = ⟨.ok a, [], s⟩ :=
  rfl

theorem account_count_bind (c : Counter) (n : UInt64) (f : Unit → Run β) (s : σ) :
    (Run.count c n >>= f).account client s = ((f ()).account client s).behind [.count c n] :=
  rfl

theorem account_wait_bind (ms : Nat) (f : Unit → Run β) (s : σ) :
    (Run.ofDialogue (Dialogue.wait ms) >>= f).account client s =
      ((f ()).account client s).behind [.wait ms] :=
  rfl

theorem account_bind (p : Run α) (f : α → Run β) (s : σ) : (p >>= f).account client s =
    (Dialogue.account client (ExceptT.bindCont f (p.account client s).result)
      (p.account client s).store).behind (p.account client s).acts :=
  Dialogue.account_bind p.run _ s

/-- What the first part of a run does is done in the run. -/
theorem mem_acts_bind {act : Act} {s : σ} (h : act ∈ (p.account client s).acts) (f : α → Run β) :
    act ∈ ((p >>= f).account client s).acts := by
  rw [account_bind]
  exact List.mem_append_left _ h

/-- A run in two parts goes on with the result of the first one. -/
theorem account_bind_of_ok (h : p.account client s = ⟨.ok a, acts, s'⟩) :
    (p >>= f).account client s = ((f a).account client s').behind acts := by
  rw [account_bind, h]
  rfl

/-- A run in two parts ends with the fault of the first one. -/
theorem account_bind_of_error (h : p.account client s = ⟨.error fault, acts, s'⟩) :
    (p >>= f).account client s = ⟨.error fault, acts, s'⟩ := by
  rw [account_bind, h]
  exact congrArg (Account.mk _ · _) (List.append_nil acts)

/-- What is made of a result at the end changes nothing else. -/
theorem account_bind_pure {result : Except Fault α} (g : α → β)
    (h : p.account client s = ⟨result, acts, s'⟩) :
    (p >>= fun a => Pure.pure (g a)).account client s = ⟨result.map g, acts, s'⟩ := by
  cases result with
  | ok a =>
    rw [account_bind_of_ok h]
    exact congrArg (Account.mk _ · _) (List.append_nil acts)
  | error fault => exact account_bind_of_error h

theorem account_sendCounted (r : Request) (s : σ) :
    (Run.ofDialogue (Dialogue.sendCounted r)).account client s =
      ⟨.ok (client r s).1, Act.sending r (client r s).1, (client r s).2⟩ := by
  unfold Dialogue.sendCounted Act.sending
  cases r.counter? <;> rfl

end Run

end KeyedQuery
