import KeyedQuery.Proofs.Accounts
import KeyedQuery.Proofs.Transaction.InPlace

/-!
# The life of a buffer

A sequence of calls of one write buffer is made against a store that may answer every request as it
likes. `WriteBuffer.history` is what happens: for each call the buffer before and after it, what the call
came to, and what was sent, with the answers. `WriteBuffer.Event.Lawful` is what is true of every event, and
`WriteBuffer.history_lawful` that of every history from a new buffer on: the buffer never holds more than a
transaction may, it is closed at most once, whatever is called after that is refused and has no effect, and
no more than one commit is sent.
-/

namespace KeyedQuery

variable {σ : Type}

/-! ## Exchanges -/

/-- A store with a record of the requests that it received, and of its answers. -/
def Client.recording (client : Client σ) : Client (σ × List Exchange) := fun r s =>
  let (answer, after) := client r s.1
  (answer, after, s.2 ++ [⟨r, answer⟩])

/-- The exchanges are attempts at one request, and the result is what the last of them came to. -/
structure Exchange.Attempts (r : Request) (exchanges : List Exchange) (result : Except Fault r.Answer) :
    Prop where
  request_eq : ∀ x ∈ exchanges, x.request = r
  exists_last : ∃ answer, exchanges.getLast? = some ⟨r, answer⟩ ∧ result = answer.mapError .store

namespace Exchange.Attempts

variable {r : Request} {exchanges : List Exchange} {result : Except Fault r.Answer}

theorem single (answer : Except StoreFault r.Answer) :
    Attempts r [⟨r, answer⟩] (answer.mapError .store) where
  request_eq x hx := by rw [List.mem_singleton.mp hx]
  exists_last := ⟨answer, rfl, rfl⟩

theorem cons (answer : Except StoreFault r.Answer) (h : Attempts r exchanges result) :
    Attempts r (⟨r, answer⟩ :: exchanges) result where
  request_eq x hx := by
    rcases List.mem_cons.mp hx with rfl | hx
    · rfl
    · exact h.request_eq x hx
  exists_last := by
    obtain ⟨last, hlast, hresult⟩ := h.exists_last
    exact ⟨last, by rw [List.getLast?_cons, hlast]; rfl, hresult⟩

end Exchange.Attempts

/-- A request whose answers are recorded is attempted once or several times. -/
theorem RetryConfig.exists_attempts (retry : RetryConfig) (client : Client σ) (r : Request)
    (w : World (σ × List Exchange)) : ∃ exchanges : List Exchange,
      ((retry.request r).run.run client.recording w).2.store.2 = w.store.2 ++ exchanges ∧
        Exchange.Attempts r exchanges ((retry.request r).run.run client.recording w).1 := by
  have hsend : ∀ left repetitions (w : World (σ × List Exchange)), ∃ exchanges : List Exchange,
      ((retry.sendAfter r repetitions left).run.run client.recording w).2.store.2 =
          w.store.2 ++ exchanges ∧
        Exchange.Attempts r exchanges
          ((retry.sendAfter r repetitions left).run.run client.recording w).1 := by
    intro left
    induction left with
    | zero =>
      intro repetitions w
      obtain ⟨world, _, hworld, -, hrun⟩ := retry.run_sendAfter client.recording r repetitions 0 w
      refine ⟨[⟨r, (client r w.store.1).1⟩], ?_⟩
      have hanswer : (client.recording r w.store).1 = (client r w.store.1).1 := rfl
      rw [hrun, hanswer]
      cases hend : (client r w.store.1).1 with
      | ok answer => exact ⟨by rw [hworld, ← hend]; rfl, .single (.ok answer)⟩
      | error fault => exact ⟨by rw [hworld, ← hend]; rfl, .single (.error fault)⟩
    | succ left ih =>
      intro repetitions w
      obtain ⟨world, next, hworld, hnext, hrun⟩ :=
        retry.run_sendAfter client.recording r repetitions (left + 1) w
      have hanswer : (client.recording r w.store).1 = (client r w.store.1).1 := rfl
      rw [hrun, hanswer]
      cases hend : (client r w.store.1).1 with
      | ok answer =>
        exact ⟨[⟨r, .ok answer⟩], by rw [hworld, ← hend]; rfl, .single (.ok answer)⟩
      | error fault =>
        dsimp only
        split
        · obtain ⟨exchanges, hstore, hattempts⟩ := ih (repetitions + 1) next
          refine ⟨⟨r, .error fault⟩ :: exchanges, ?_, hattempts.cons _⟩
          rw [hstore, hnext, ← hend]
          exact List.append_assoc _ _ _
        · exact ⟨[⟨r, .error fault⟩], by rw [hworld, ← hend]; rfl, .single (.error fault)⟩
  exact hsend retry.repetitions 0 w

namespace WriteBuffer

/-! ## Calls -/

/-- A call of a write buffer. -/
inductive Call where
  /-- Put a write behind the others. -/
  | add (w : Write)
  /-- Make a write the one to the row of a key. -/
  | stage (w : Write) (key : Item)
  /-- Look up the last write to the row of a key. -/
  | pending (table : String) (key : Item)
  /-- Look up the row last put among those that satisfy conditions. -/
  | search (table : String) (conditions : List NormalizedCondition)
  /-- Send the writes. -/
  | commit (retry : RetryConfig) (token : String)
  /-- Drop the writes. -/
  | abort

/-- What a call answers if it succeeds. -/
abbrev Call.Answer : Call → Type
  | .pending _ _ => Option Write
  | .search _ _ => Option Item
  | .add _ | .stage _ _ | .commit _ _ | .abort => Unit

/-- Make a call. -/
def Call.perform : (call : Call) → InPlace WriteBuffer call.Answer
  | .add w => InPlace.add w
  | .stage w key => InPlace.stage w key
  | .pending table key => InPlace.pending table key
  | .search table conditions => InPlace.search table conditions
  | .commit retry token => InPlace.commit retry token
  | .abort => InPlace.abort

/-- A call that was made. -/
structure Event where
  /-- The call. -/
  call : Call
  /-- The buffer before the call. -/
  before : WriteBuffer
  /-- What the call came to. -/
  result : Except Fault call.Answer
  /-- What was sent, with the answers. -/
  exchanges : List Exchange
  /-- The buffer after the call. -/
  after : WriteBuffer

/-- The call puts a write into the buffer. -/
def Call.Buffers : Call → Prop
  | .add _ | .stage _ _ => True
  | .pending _ _ | .search _ _ | .commit _ _ | .abort => False

/-- The call sends the writes. -/
def Call.IsCommit : Call → Prop
  | .commit _ _ => True
  | .add _ | .stage _ _ | .pending _ _ | .search _ _ | .abort => False

/-- Make a call of a buffer, and see what happens and what becomes of the store. -/
def Call.event (client : Client σ) (b : WriteBuffer) (s : σ) (call : Call) : Event × σ :=
  let ended := (call.perform.on b).run client.recording { store := (s, []) }
  (⟨call, b, ended.1.1, ended.2.store.2, ended.1.2⟩, ended.2.store.1)

/-- Make calls of a buffer one after another. -/
def history (client : Client σ) : WriteBuffer → σ → List Call → List Event
  | _, _, [] => []
  | b, s, call :: rest =>
    let (event, s) := call.event client b s
    event :: history client event.after s rest

/-! ## One call -/

/-- What a call comes to, as it is for a buffer that is not changed in place. -/
def Call.outcome (b : WriteBuffer) : (call : Call) → Dialogue (Except Fault call.Answer × WriteBuffer)
  | .add w => pure (InPlace.settle b ((b.add w).map fun next => ((), next)))
  | .stage w key => pure (InPlace.settle b ((b.stage w key).map fun next => ((), next)))
  | .pending table key => pure (b.pending table key, b)
  | .search table conditions => pure (b.search table conditions, b)
  | .commit retry token => b.commit retry token
  | .abort => pure (InPlace.settle b (b.abort.map fun next => ((), next)))

theorem Call.on_perform (b : WriteBuffer) (call : Call) : call.perform.on b = call.outcome b := by
  cases call with
  | add w => exact InPlace.on_add b w
  | stage w key => exact InPlace.on_stage b w key
  | pending table key => exact InPlace.on_pending b table key
  | search table conditions => exact InPlace.on_search b table conditions
  | commit retry token => exact InPlace.on_commit b retry token
  | abort => exact InPlace.on_abort b

/-- A closed buffer refuses every call and sends nothing. -/
theorem Call.outcome_of_closed {b : WriteBuffer} (hclosed : b.status ≠ .active) (call : Call) :
    call.outcome b = pure (.error .transactionClosed, b) := by
  have hcheck : b.requireActive = .error .transactionClosed := if_neg hclosed
  cases call with
  | add w => rw [outcome, WriteBuffer.add, hcheck]; rfl
  | stage w key => rw [outcome, WriteBuffer.stage, hcheck]; rfl
  | pending table key => rw [outcome, WriteBuffer.pending, hcheck]; rfl
  | search table conditions => rw [outcome, WriteBuffer.search, hcheck]; rfl
  | commit retry token => rw [outcome, WriteBuffer.commit, hcheck]
  | abort => rw [outcome, WriteBuffer.abort, hcheck]; rfl

variable {client : Client σ} {b : WriteBuffer} {s : σ} {call : Call}

theorem Call.event_eq {ended : Except Fault call.Answer × WriteBuffer}
    (h : call.outcome b = pure ended) :
    call.event client b s = (⟨call, b, ended.1, [], ended.2⟩, s) := by
  rw [event, on_perform, h]
  rfl

theorem status_of_requireActive {checked : Unit} (h : b.requireActive = .ok checked) :
    b.status = .active := by
  by_contra hclosed
  rw [requireActive, if_neg hclosed] at h
  cases h

/-- A write that is added leaves the buffer active and not too full. -/
theorem of_add_eq_ok {b' : WriteBuffer} {w : Write} (h : b.add w = .ok b') :
    b'.status = .active ∧ b'.writes.length ≤ 25 := by
  obtain ⟨_, hactive, h⟩ := exists_of_bind_eq_ok h
  split at h
  · cases h
  · rename_i hroom
    obtain rfl := Except.ok.inj h
    refine ⟨status_of_requireActive hactive, ?_⟩
    rw [List.length_append]
    exact Nat.not_le.mp hroom

theorem of_stage_eq_ok {b' : WriteBuffer} {w : Write} {key : Item} (hlength : b.writes.length ≤ 25)
    (h : b.stage w key = .ok b') : b'.status = .active ∧ b'.writes.length ≤ 25 := by
  obtain ⟨_, hactive, h⟩ := exists_of_bind_eq_ok h
  split at h
  · obtain rfl := Except.ok.inj h
    exact ⟨status_of_requireActive hactive, by rwa [List.length_set]⟩
  · exact of_add_eq_ok h

/-! ## What is true of every call -/

/-- The buffer holds no more than a transaction may, and nothing once it is closed. -/
structure Bounded (b : WriteBuffer) : Prop where
  length_le : b.writes.length ≤ 25
  nil_of_closed : b.status ≠ .active → b.writes = []

namespace Event

/-- The call failed because the buffer was closed. It sent nothing and changed nothing. -/
structure IsRefused (e : Event) : Prop where
  result_eq : e.result = .error .transactionClosed
  exchanges_eq : e.exchanges = []
  after_eq : e.after = e.before

/-- What is true of every call of a buffer. -/
structure Lawful (e : Event) : Prop where
  /-- The buffer stays in its bounds. -/
  bounded : e.after.Bounded
  /-- A write that cannot be buffered changes nothing. -/
  after_eq : ∀ fault, e.call.Buffers → e.result = .error fault → e.after = e.before
  /-- A closed buffer refuses every call. -/
  isRefused : e.before.status ≠ .active → e.IsRefused
  /-- A buffer is closed by a commit, however that ends, and by dropping its writes. -/
  closes_iff : e.before.status = .active →
    (e.after.status ≠ .active ↔ e.call.IsCommit ∨ e.call = .abort)
  /-- Only a commit of some writes sends anything, and it does. -/
  sends_iff : e.exchanges ≠ [] ↔ e.before.status = .active ∧ e.before.writes ≠ [] ∧ e.call.IsCommit
  /-- What is sent is one request, of all writes in their order. -/
  request_eq : ∀ retry token, e.call = .commit retry token →
    ∀ x ∈ e.exchanges, x.request = .transact e.before.writes token
  /-- A commit succeeds if the last attempt does, or if there is nothing to send. -/
  committed_iff : e.before.status = .active → (e.after.status = .committed ↔ e.call.IsCommit ∧
    (e.before.writes = [] ∨ ∃ x, e.exchanges.getLast? = some x ∧ x.answer.isOk = true))

/-- A buffer that is refused. -/
theorem lawful_of_closed (hb : b.Bounded) (hclosed : b.status ≠ .active) :
    (call.event client b s).1.Lawful := by
  rw [Call.event_eq (Call.outcome_of_closed hclosed call)]
  exact {
    bounded := hb
    after_eq := fun _ _ _ => rfl
    isRefused := fun _ => ⟨rfl, rfl, rfl⟩
    closes_iff := fun hactive => absurd hactive hclosed
    sends_iff := ⟨fun h => absurd rfl h, fun h => absurd h.1 hclosed⟩
    request_eq := fun _ _ _ x hx => absurd hx List.not_mem_nil
    committed_iff := fun hactive => absurd hactive hclosed }

/-- A call that buffers a write or looks at the buffer leaves it active. -/
theorem lawful_of_active {ended : Except Fault call.Answer × WriteBuffer} (hactive : b.status = .active)
    (hcommit : ¬call.IsCommit) (habort : call ≠ .abort) (houtcome : call.outcome b = pure ended)
    (hended : ended.2.status = .active ∧ ended.2.writes.length ≤ 25)
    (hfault : ∀ fault, ended.1 = .error fault → ended.2 = b) :
    (call.event client b s).1.Lawful := by
  have hstatus : ended.2.status ≠ .committed := fun h => by cases hended.1.symm.trans h
  rw [Call.event_eq houtcome]
  exact {
    bounded := ⟨hended.2, fun hclosed => absurd hended.1 hclosed⟩
    after_eq := fun fault _ => hfault fault
    isRefused := fun hclosed => absurd hactive hclosed
    closes_iff := fun _ => ⟨fun hclosed => absurd hended.1 hclosed,
      fun h => (h.elim hcommit habort).elim⟩
    sends_iff := ⟨fun h => absurd rfl h, fun h => absurd h.2.2 hcommit⟩
    request_eq := fun _ _ _ x hx => absurd hx List.not_mem_nil
    committed_iff := fun _ => ⟨fun h => absurd h hstatus, fun h => absurd h.1 hcommit⟩ }

theorem lawful_of_abort (hactive : b.status = .active) :
    (Call.abort.event client b s).1.Lawful := by
  have houtcome : Call.abort.outcome b = pure (.ok (), ⟨[], .aborted⟩) := by
    rw [Call.outcome, WriteBuffer.abort, requireActive, if_pos hactive]
    rfl
  rw [Call.event_eq houtcome]
  exact {
    bounded := ⟨Nat.zero_le _, fun _ => rfl⟩
    after_eq := fun _ h => h.elim
    isRefused := fun hclosed => absurd hactive hclosed
    closes_iff := fun _ => ⟨fun _ => .inr rfl, fun _ h => by cases h⟩
    sends_iff := ⟨fun h => absurd rfl h, fun h => h.2.2.elim⟩
    request_eq := fun _ _ h => by cases h
    committed_iff := fun _ => ⟨fun h => (by cases h), fun h => h.1.elim⟩ }

theorem lawful_of_commit_nil (hactive : b.status = .active) (hwrites : b.writes = [])
    (retry : RetryConfig) (token : String) :
    ((Call.commit retry token).event client b s).1.Lawful := by
  have houtcome : (Call.commit retry token).outcome b =
      pure (.ok (), { b with status := .committed }) := by
    rw [Call.outcome, WriteBuffer.commit, requireActive, if_pos hactive]
    exact if_pos (List.isEmpty_iff.mpr hwrites)
  rw [Call.event_eq houtcome]
  exact {
    bounded := ⟨by simp [hwrites], fun _ => hwrites⟩
    after_eq := fun _ h => h.elim
    isRefused := fun hclosed => absurd hactive hclosed
    closes_iff := fun _ => ⟨fun _ => .inl trivial, fun _ h => by cases h⟩
    sends_iff := ⟨fun h => absurd rfl h, fun h => absurd hwrites h.2.1⟩
    request_eq := fun _ _ _ x hx => absurd hx List.not_mem_nil
    committed_iff := fun _ => ⟨fun _ => ⟨trivial, .inl hwrites⟩, fun _ => rfl⟩ }

/-- A commit of some writes in a buffer that is not changed in place. -/
theorem outcome_commit (hactive : b.status = .active) (hwrites : b.writes ≠ [])
    (retry : RetryConfig) (token : String) : (Call.commit retry token).outcome b =
      (retry.request (.transact b.writes token)).run >>= fun result =>
        match result with
        | .ok _ => do
          Dialogue.count .transactionsCommitted 1
          pure (.ok (), ⟨[], .committed⟩)
        | .error fault => pure (.error fault, ⟨[], .aborted⟩) := by
  rw [Call.outcome, WriteBuffer.commit, requireActive, if_pos hactive]
  refine (if_neg fun hempty => hwrites (List.isEmpty_iff.mp hempty)).trans ?_
  refine congrArg ((retry.request (.transact b.writes token)).run >>= ·) (funext fun result => ?_)
  cases result <;> rfl

/-- The buffer is closed by what the last attempt comes to. -/
theorem lawful_of_commit (hactive : b.status = .active) (hwrites : b.writes ≠ [])
    (retry : RetryConfig) (token : String) :
    ((Call.commit retry token).event client b s).1.Lawful := by
  obtain ⟨exchanges, hstore, hrequest, answer, hlast, hresult⟩ := retry.exists_attempts client
    (.transact b.writes token) { store := (s, []) }
  have hevent : ∃ status : Status, status ≠ .active ∧ (status = .committed ↔ answer.isOk = true) ∧
      ∃ result, ((Call.commit retry token).event client b s).1 =
        ⟨.commit retry token, b, result, exchanges, ⟨[], status⟩⟩ := by
    rw [Call.event, Call.on_perform, outcome_commit hactive hwrites, Dialogue.run_bind]
    generalize (retry.request (.transact b.writes token)).run.run client.recording
      { store := (s, []) } = ended at hstore hresult
    obtain ⟨_, w⟩ := ended
    obtain rfl : w.store.2 = exchanges := hstore
    obtain rfl := hresult
    cases answer with
    | ok _ => exact ⟨.committed, nofun, ⟨fun _ => rfl, fun _ => rfl⟩, .ok (), rfl⟩
    | error fault => exact ⟨.aborted, nofun, ⟨nofun, nofun⟩, .error (.store fault), rfl⟩
  obtain ⟨status, hclosed, hstatus, result, hevent⟩ := hevent
  rw [hevent]
  have hne : exchanges ≠ [] := by
    rintro rfl
    cases hlast
  exact {
    bounded := ⟨Nat.zero_le _, fun _ => rfl⟩
    after_eq := fun _ h => h.elim
    isRefused := fun hclosed => absurd hactive hclosed
    closes_iff := fun _ => ⟨fun _ => .inl trivial, fun _ => hclosed⟩
    sends_iff := ⟨fun _ => ⟨hactive, hwrites, trivial⟩, fun _ => hne⟩
    request_eq := fun _ _ hcall x hx => by
      obtain ⟨rfl, rfl⟩ := Call.commit.inj hcall
      exact hrequest x hx
    committed_iff := fun _ => by
      rw [hlast]
      simpa [hwrites, Call.IsCommit] using hstatus }

/-- Every call of a buffer in its bounds is lawful. -/
theorem lawful (hb : b.Bounded) : (call.event client b s).1.Lawful := by
  by_cases hactive : b.status = .active
  · have hbuffer : ∀ attempt : Except Fault WriteBuffer,
        (∀ b', attempt = .ok b' → b'.status = .active ∧ b'.writes.length ≤ 25) →
        let ended := InPlace.settle b (attempt.map fun next => ((), next))
        (ended.2.status = .active ∧ ended.2.writes.length ≤ 25) ∧
          ∀ fault, ended.1 = .error fault → ended.2 = b := by
      intro attempt hattempt
      cases attempt with
      | ok b' => exact ⟨hattempt b' rfl, nofun⟩
      | error fault => exact ⟨⟨hactive, hb.length_le⟩, fun _ _ => rfl⟩
    cases call with
    | add w =>
      obtain ⟨hended, hfault⟩ := hbuffer (b.add w) fun _ => of_add_eq_ok
      exact lawful_of_active hactive id nofun rfl hended hfault
    | stage w key =>
      obtain ⟨hended, hfault⟩ := hbuffer (b.stage w key) fun _ => of_stage_eq_ok hb.length_le
      exact lawful_of_active hactive id nofun rfl hended hfault
    | pending table key =>
      exact lawful_of_active hactive id nofun rfl ⟨hactive, hb.length_le⟩ fun _ _ => rfl
    | search table conditions =>
      exact lawful_of_active hactive id nofun rfl ⟨hactive, hb.length_le⟩ fun _ _ => rfl
    | commit retry token =>
      by_cases hwrites : b.writes = []
      · exact lawful_of_commit_nil hactive hwrites retry token
      · exact lawful_of_commit hactive hwrites retry token
    | abort => exact lawful_of_abort hactive
  · exact lawful_of_closed hb hactive

end Event

/-! ## All calls -/

theorem bounded_empty : Bounded {} :=
  ⟨Nat.zero_le _, fun _ => rfl⟩

/-- Every call of a buffer is lawful. -/
theorem lawful_of_mem_history : ∀ {calls : List Call} {b : WriteBuffer} {s : σ} {e : Event},
    b.Bounded → e ∈ history client b s calls → e.before.Bounded ∧ e.Lawful
  | [], _, _, _, _, he => absurd he List.not_mem_nil
  | call :: rest, b, s, e, hb, he => by
    have hlawful : (call.event client b s).1.Lawful := Event.lawful hb
    rcases List.mem_cons.mp he with rfl | he
    · exact ⟨hb, hlawful⟩
    · exact lawful_of_mem_history hlawful.bounded he

/-- Whatever is called of a closed buffer is refused. -/
theorem isRefused_of_mem_history : ∀ {calls : List Call} {b : WriteBuffer} {s : σ} {e : Event},
    b.status ≠ .active → e ∈ history client b s calls → e.IsRefused ∧ e.after = b
  | [], _, _, _, _, he => absurd he List.not_mem_nil
  | call :: rest, b, s, e, hclosed, he => by
    rw [history, Call.event_eq (Call.outcome_of_closed hclosed call)] at he
    rcases List.mem_cons.mp he with rfl | he
    · exact ⟨⟨rfl, rfl, rfl⟩, rfl⟩
    · exact isRefused_of_mem_history hclosed he

/-- What is called of a buffer after it was closed is refused. -/
theorem pairwise_history : ∀ {calls : List Call} {b : WriteBuffer} {s : σ},
    (history client b s calls).Pairwise fun e later =>
      e.after.status ≠ .active → later.IsRefused ∧ later.after = e.after
  | [], _, _ => .nil
  | _ :: _, _, _ => .cons (fun _ hlater hclosed => isRefused_of_mem_history hclosed hlater)
      pairwise_history

/-- Whatever is called of a new buffer, and whatever the store answers: the buffer never holds more
than 25 writes, a write that cannot be buffered changes nothing, and the buffer stays active until it is
committed or its writes are dropped. From then on it holds no writes, and it refuses every call without
sending anything or changing again. At most one call sends anything, a commit of some writes. All that it
sends is one request, with the writes in their order and one token, perhaps several times, and the buffer
is committed if and only if the last of these succeeds, or there is nothing to send. -/
theorem history_lawful (client : Client σ) (s : σ) (calls : List Call) :
    (∀ e ∈ history client {} s calls, e.before.Bounded ∧ e.Lawful) ∧
      ((history client {} s calls).Pairwise fun e later =>
        e.after.status ≠ .active → later.IsRefused ∧ later.after = e.after) ∧
      (history client {} s calls).Pairwise fun e later => e.exchanges ≠ [] → later.exchanges = [] := by
  have hlawful : ∀ e ∈ history client {} s calls, e.before.Bounded ∧ e.Lawful :=
    fun e he => lawful_of_mem_history bounded_empty he
  refine ⟨hlawful, pairwise_history, ?_⟩
  refine pairwise_history.imp_of_mem fun {e later} he _ hrefused hsends => ?_
  obtain ⟨hactive, -, hcommit⟩ := (hlawful e he).2.sends_iff.mp hsends
  exact (hrefused (((hlawful e he).2.closes_iff hactive).mpr (.inl hcommit))).1.exchanges_eq

end WriteBuffer

end KeyedQuery
