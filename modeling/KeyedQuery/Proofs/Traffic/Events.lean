import KeyedQuery.Proofs.Accounts
import KeyedQuery.Store.Memory

/-!
# Traffic and its counters

Seven counters are about traffic with the store. What each of them should show is read off the requests and
their answers alone: how many there are of a kind, how many follow on one that failed or left keys
unprocessed, and how many writes were accepted (`Counter.events`). One exchange more is at most one event of
each sort (`Counter.events_concat`), so what a run has counted can be compared with what has happened act by
act. Between the two there is at most one event that has been counted ahead of its exchange, or one that is
still to be counted (`Act.Balance`).
-/

namespace KeyedQuery

/-! ## Requests and answers -/

theorem Request.counter?_eq_some_iff {r : Request} {c : Counter} : r.counter? = some c ↔
    c = .queryRequests ∧ r.kind = .query ∨ c = .scanRequests ∧ r.kind = .scan ∨
      c = .batchGetRequests ∧ r.kind = .batchGet := by
  cases r with
  | page p => cases hp : p.access <;> simp [counter?, kind, hp, eq_comm]
  | _ => simp [counter?, kind, eq_comm]

namespace Exchange

/-- The request was carried out. -/
def isOk : Exchange → Bool
  | ⟨_, .ok _⟩ => true
  | ⟨_, .error _⟩ => false

/-- The request met a transient fault. -/
def isTransient : Exchange → Bool
  | ⟨_, .error fault⟩ => fault.isTransient
  | ⟨_, .ok _⟩ => false

/-- The batch of the keys that the answer leaves unprocessed. -/
def leftover? : Exchange → Option Request
  | ⟨.batchGet table _, .ok answer⟩ =>
    if answer.unprocessed.isEmpty then none else some (.batchGet table answer.unprocessed)
  | _ => none

/-- A request met a transient fault, and the next one is the same. -/
def repeats (x y : Exchange) : Bool :=
  x.isTransient && y.request = x.request

/-- A batch left keys unprocessed, and the next one is of these keys. -/
def resumes (x y : Exchange) : Bool :=
  x.leftover? = some y.request

/-- A request of a kind was carried out. -/
def isAccepted (kind : RequestKind) (x : Exchange) : Bool :=
  x.request.kind = kind && x.isOk

/-- The counter of the event that a request is behind an exchange. -/
def again? (x : Exchange) (r : Request) : Option Counter :=
  if x.isTransient ∧ r = x.request then some .transientRetries
  else if x.leftover? = some r then some .unprocessedRetries
  else none

/-- The counter of the event that the answer is. -/
def accepted? (x : Exchange) : Option Counter :=
  if x.isAccepted .write then some .writes
  else if x.isAccepted .transaction then some .transactionsCommitted
  else none

variable {x : Exchange} {c : Counter}

/-- What met a fault has left nothing over. -/
theorem leftover?_of_isTransient (h : x.isTransient) : x.leftover? = none := by
  obtain ⟨r, answer | answer⟩ := x
  · cases r <;> rfl
  · cases h

theorem again?_eq_some_iff {r : Request} : x.again? r = some c ↔
    c = .transientRetries ∧ x.isTransient ∧ r = x.request ∨
      c = .unprocessedRetries ∧ x.leftover? = some r := by
  unfold again?
  split
  · rename_i h
    simp [h, leftover?_of_isTransient h.1, eq_comm]
  · rename_i h
    rw [or_iff_right fun hagain => h hagain.2]
    split <;> rename_i hleft <;> simp [hleft, eq_comm (a := c)]

theorem accepted?_eq_some_iff : x.accepted? = some c ↔
    c = .writes ∧ x.isAccepted .write ∨ c = .transactionsCommitted ∧ x.isAccepted .transaction := by
  unfold accepted? isAccepted
  cases x.isOk <;> cases x.request.kind <;> simp [eq_comm]

/-- What met a fault is not accepted. -/
theorem accepted?_error {r : Request} (fault : StoreFault) :
    accepted? ⟨r, .error fault⟩ = none := by
  simp [accepted?, isAccepted, isOk]

/-- Nothing follows on an answer that leaves nothing over. -/
theorem again?_ok {r : Request} {a : r.Answer} (h : leftover? ⟨r, .ok a⟩ = none) (next : Request) :
    again? ⟨r, .ok a⟩ next = none := by
  simp [again?, isTransient, h]

end Exchange

/-! ## Events -/

/-- The number of neighbours in a list that are in a relation. -/
def countNext {α : Type} (rel : α → α → Bool) (xs : List α) : Nat :=
  (xs.zip xs.tail).countP fun pair => rel pair.1 pair.2

theorem countNext_concat {α : Type} (rel : α → α → Bool) (xs : List α) (y : α) :
    countNext rel (xs ++ [y]) =
      countNext rel xs + if xs.getLast?.any (rel · y) then 1 else 0 := by
  induction xs with
  | nil => rfl
  | cons x xs ih =>
    cases xs with
    | nil => cases h : rel x y <;> simp [countNext, h]
    | cons z xs =>
      have hcons : ∀ zs, countNext rel (x :: z :: zs) =
          countNext rel (z :: zs) + if rel x z then 1 else 0 := fun zs => List.countP_cons
      rw [List.getLast?_cons_cons, List.cons_append, List.cons_append, hcons, hcons,
        ← List.cons_append, ih]
      omega

namespace Counter

/-- The counter is about traffic with the store. -/
def isTraffic : Counter → Bool
  | .queryRequests | .scanRequests | .batchGetRequests | .transientRetries | .unprocessedRetries
  | .transactionsCommitted | .writes => true
  | .finds | .counts | .rowsFiltered | .loaderFlushes => false

/-- The events that a counter is about, among the exchanges of one task. -/
def events (xs : List Exchange) : Counter → Nat
  | .queryRequests => xs.countP fun x => x.request.kind = .query
  | .scanRequests => xs.countP fun x => x.request.kind = .scan
  | .batchGetRequests => xs.countP fun x => x.request.kind = .batchGet
  | .transientRetries => countNext Exchange.repeats xs
  | .unprocessedRetries => countNext Exchange.resumes xs
  | .transactionsCommitted => xs.countP (Exchange.isAccepted .transaction)
  | .writes => xs.countP (Exchange.isAccepted .write)
  | .finds | .counts | .rowsFiltered | .loaderFlushes => 0

/-- One if it is the given counter. -/
def once (c : Counter) (given : Option Counter) : Nat :=
  if given = some c then 1 else 0

variable {c : Counter}

@[simp] theorem once_none (c : Counter) : c.once none = 0 :=
  rfl

/-- One exchange more is an event if its request is of the counter's kind, if it follows on the last exchange
in the way that is counted, and if its answer is what is counted. -/
theorem events_concat (hc : c.isTraffic) (xs : List Exchange) (y : Exchange) :
    c.events (xs ++ [y]) = c.events xs + c.once y.request.counter? +
      c.once (xs.getLast?.bind (·.again? y.request)) + c.once y.accepted? := by
  simp only [once, Request.counter?_eq_some_iff, Option.bind_eq_some_iff, Exchange.again?_eq_some_iff,
    Exchange.accepted?_eq_some_iff]
  cases c <;> simp [events, countNext_concat, List.countP_append, Option.any_eq_true, Exchange.repeats,
    Exchange.resumes] at hc ⊢

end Counter

/-! ## Balances -/

namespace Act

variable {acts : List Act} {ahead behind : Option Counter} {c d : Counter}

/-- The exchanges among some acts. -/
def exchanges (acts : List Act) : List Exchange :=
  acts.filterMap exchange?

/-- What some acts add to a counter. -/
def counted (c : Counter) (acts : List Act) : Nat :=
  (acts.map fun act => (act.adds c).toNat).sum

/-- As much has been counted as has happened, but for an event that has been counted ahead and one that is
still to be counted. -/
def Balance (ahead behind : Option Counter) (acts : List Act) : Prop :=
  ∀ c : Counter, c.isTraffic →
    counted c acts + c.once behind = c.events (exchanges acts) + c.once ahead

/-- As much has been counted as has happened. -/
def Balanced (acts : List Act) : Prop :=
  Balance none none acts

/-- All that is still to be done for a request is to send it: if that is an event, it has been counted. -/
def Ready (r : Request) (acts : List Act) : Prop :=
  Balance ((exchanges acts).getLast?.bind (·.again? r)) none acts

/-- As much has been counted as has happened, and there is nothing that another request could follow on. -/
structure Settled (acts : List Act) : Prop where
  balanced : Balanced acts
  apart : ∀ r, (exchanges acts).getLast?.bind (·.again? r) = none

/-- A request has just been answered. Only the event that the answer is remains to be counted. -/
structure Sent (r : Request) (answer : Except StoreFault r.Answer) (acts : List Act) : Prop where
  balance : Balance none (Exchange.accepted? ⟨r, answer⟩) acts
  last : (exchanges acts).getLast? = some ⟨r, answer⟩

theorem exchanges_concat_count (acts : List Act) (c : Counter) (n : UInt64) :
    exchanges (acts ++ [.count c n]) = exchanges acts := by
  simp [exchanges, exchange?]

theorem exchanges_concat_wait (acts : List Act) (ms : Nat) :
    exchanges (acts ++ [.wait ms]) = exchanges acts := by
  simp [exchanges, exchange?]

theorem counted_append (c : Counter) (acts more : List Act) :
    counted c (acts ++ more) = counted c acts + counted c more := by
  simp [counted]

theorem counted_concat (c : Counter) (acts : List Act) (act : Act) :
    counted c (acts ++ [act]) = counted c acts + (act.adds c).toNat :=
  counted_append c acts [act]

/-- What a counter shows in the end is what has been counted, in a word that wraps around. -/
theorem sum_adds (c : Counter) (acts : List Act) :
    (acts.map (adds c)).sum = UInt64.ofNat (counted c acts) := by
  induction acts with
  | nil => rfl
  | cons act acts ih =>
    rw [List.map_cons, List.sum_cons, ih]
    exact ((UInt64.ofNat_add _ _).trans (congrArg (· + _) UInt64.ofNat_toNat)).symm

theorem counted_concat_count_one (c d : Counter) (acts : List Act) :
    counted c (acts ++ [.count d 1]) = counted c acts + c.once (some d) := by
  rw [counted_concat]
  by_cases h : d = c <;> simp [adds, Counter.once, h]

/-- What is still to be counted is counted. -/
theorem Balance.count (h : Balance ahead (some d) acts) : Balance ahead none (acts ++ [.count d 1]) := by
  intro c hc
  have hbefore := h c hc
  rw [counted_concat_count_one, exchanges_concat_count, Counter.once_none]
  omega

/-- An event is counted ahead. -/
theorem Balance.count_ahead (h : Balance none none acts) (d : Counter) :
    Balance (some d) none (acts ++ [.count d 1]) := by
  intro c hc
  have hbefore := h c hc
  rw [counted_concat_count_one, exchanges_concat_count]
  simp only [Counter.once_none] at hbefore ⊢
  omega

/-- What else is counted does not matter. -/
theorem Balance.count_other (h : Balance ahead behind acts) (hd : d.isTraffic = false) (n : UInt64) :
    Balance ahead behind (acts ++ [.count d n]) := by
  intro c hc
  have hne : d ≠ c := by
    rintro rfl
    rw [hc] at hd
    cases hd
  rw [counted_concat, exchanges_concat_count]
  simpa [adds, hne] using h c hc

theorem Balance.wait (h : Balance ahead behind acts) (ms : Nat) :
    Balance ahead behind (acts ++ [.wait ms]) := by
  intro c hc
  rw [counted_concat, exchanges_concat_wait]
  exact h c hc

/-- A request is sent that is counted by its kind and, if it is one more, ahead. -/
theorem Ready.sent {r : Request} (h : Ready r acts) (answer : Except StoreFault r.Answer) :
    Sent r answer (acts ++ sending r answer) := by
  have hlast : exchanges (acts ++ sending r answer) = exchanges acts ++ [⟨r, answer⟩] := by
    unfold sending
    cases r.counter? <;> exact List.filterMap_append
  have hcounted : ∀ c, counted c (acts ++ sending r answer) = counted c acts + c.once r.counter? := by
    intro c
    unfold sending
    cases r.counter? with
    | none => exact counted_concat c acts _
    | some d =>
      rw [Option.map_some, Option.toList_some, ← List.append_assoc, counted_concat,
        counted_concat_count_one]
      rfl
  refine ⟨fun c hc => ?_, by rw [hlast, List.getLast?_concat]⟩
  have hbefore := h c hc
  rw [hcounted, hlast, Counter.events_concat hc]
  simp only [Counter.once_none] at hbefore ⊢
  omega

end Act

end KeyedQuery
