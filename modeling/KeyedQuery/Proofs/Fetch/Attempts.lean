import KeyedQuery.Fetch.Retry
import KeyedQuery.Proofs.Accounts

/-!
# Attempts at a request

A request is sent again after a transient fault, as long as attempts are left, and after a wait that doubles
each time up to the longest one (`RetryConfig.delay_eq`; saturation makes no difference). Against a store that
may answer as it likes, `RetryConfig.account_request` is what a request does with its answers, in order, and
`RetryConfig.request_calls` what of this is recorded.
-/

namespace KeyedQuery

variable {α σ : Type}

/-- An answer after which a request is not repeated: a result, or a fault that is not transient. -/
def IsFinal : Except StoreFault α → Prop
  | .ok _ => True
  | .error fault => fault.isTransient = false

namespace Client

/-- The store after it was asked for the same so many times. -/
def after (client : Client σ) (r : Request) (s : σ) : Nat → σ
  | 0 => s
  | n + 1 => (client r (client.after r s n)).2

/-- The answers of a store that is asked for the same again and again. -/
def answers (client : Client σ) (r : Request) (s : σ) (n : Nat) : Except StoreFault r.Answer :=
  (client r (client.after r s n)).1

end Client

namespace Act

variable {r : Request} {answer : Except StoreFault r.Answer}

@[simp]
theorem requests_sending : (sending r answer).filterMap request? = [r] := by
  unfold sending
  cases r.counter? <;> rfl

@[simp]
theorem waits_sending : (sending r answer).filterMap wait? = [] := by
  unfold sending
  cases r.counter? <;> rfl

/-- Sending a request is not counted as a repetition. -/
@[simp]
theorem adds_sending : ((sending r answer).map (adds .transientRetries)).sum = 0 := by
  have hne : r.counter? ≠ some .transientRetries := by
    cases r with
    | page p =>
      unfold Request.counter?
      dsimp only
      split <;> simp
    | batchGet _ _ | transact _ _ | put _ _ | update _ _ _ _ _ | delete _ _ => simp [Request.counter?]
  unfold sending
  cases hcounter : r.counter? with
  | none => rfl
  | some c =>
    rw [hcounter] at hne
    simp [adds, show c ≠ .transientRetries from fun h => hne (congrArg some h)]

end Act

namespace RetryConfig

/-- The wait doubles each time, up to the longest one. A product that saturates is longer than that. -/
theorem delay_eq (retry : RetryConfig) (i : Nat) :
    retry.delay i = min (retry.baseDelay.toNat * 2 ^ i) retry.maxDelay.toNat := by
  have hmax : retry.maxDelay.toNat ≤ saturation := Nat.le_pred_of_lt retry.maxDelay.toNat_lt
  unfold delay saturatedPower
  split
  · rw [Nat.min_assoc, Nat.min_eq_right hmax]
    rfl
  · rename_i hlarge
    rcases Nat.eq_zero_or_pos retry.baseDelay.toNat with hzero | hpos
    · simp [hzero]
    · have hpow : saturation ≤ 2 ^ i :=
        Nat.le_trans (Nat.sub_le _ _) (Nat.pow_le_pow_right (by decide) (Nat.le_of_not_lt hlarge))
      have hsaturated : saturation ≤ retry.baseDelay.toNat * saturation := Nat.le_mul_of_pos_left _ hpos
      have hlong : saturation ≤ retry.baseDelay.toNat * 2 ^ i :=
        Nat.le_trans hpow (Nat.le_mul_of_pos_left _ hpos)
      rw [Nat.min_eq_right hsaturated, Nat.min_eq_right hmax, Nat.min_eq_right (Nat.le_trans hmax hlong)]

/-- What it is to send a request and to repeat it so many times, from the given repetition on. -/
def attempts (retry : RetryConfig) (r : Request) (answers : Nat → Except StoreFault r.Answer) :
    (repetition more : Nat) → List Act
  | i, 0 => Act.sending r (answers i)
  | i, more + 1 => Act.sending r (answers i) ++
      .count .transientRetries 1 :: .wait (retry.delay i) :: retry.attempts r answers (i + 1) more

section

variable (retry : RetryConfig) {r : Request} (answers : Nat → Except StoreFault r.Answer)

theorem exchange_mem_attempts (i more : Nat) :
    .exchange ⟨r, answers i⟩ ∈ retry.attempts r answers i more := by
  cases more with
  | zero => exact Act.exchange_mem_sending r _
  | succ more => exact List.mem_append_left _ (Act.exchange_mem_sending r _)

theorem requests_attempts (i more : Nat) :
    (retry.attempts r answers i more).filterMap Act.request? = List.replicate (more + 1) r := by
  induction more generalizing i with
  | zero => exact Act.requests_sending
  | succ more ih =>
    rw [attempts, List.filterMap_append, Act.requests_sending]
    exact congrArg (r :: ·) (ih (i + 1))

theorem waits_attempts (i more : Nat) :
    (retry.attempts r answers i more).filterMap Act.wait? = (List.range' i more).map retry.delay := by
  induction more generalizing i with
  | zero => exact Act.waits_sending
  | succ more ih =>
    rw [attempts, List.filterMap_append, Act.waits_sending]
    exact congrArg (retry.delay i :: ·) (ih (i + 1))

theorem adds_attempts (i more : Nat) :
    ((retry.attempts r answers i more).map (Act.adds .transientRetries)).sum = UInt64.ofNat more := by
  induction more generalizing i with
  | zero => exact Act.adds_sending
  | succ more ih =>
    rw [attempts, List.map_append, List.sum_append, Act.adds_sending]
    simp only [List.map_cons, List.sum_cons, ih, Act.adds, if_true]
    rw [UInt64.zero_add, UInt64.zero_add, UInt64.ofNat_add, UInt64.add_comm]
    rfl

end

/-! ## Requests -/

section

variable (retry : RetryConfig) {client : Client σ} {r : Request} {s : σ}

theorem account_sendAfter_zero (i : Nat) : (retry.sendAfter r i 0).account client s =
    ⟨(client r s).1.mapError .store, Act.sending r (client r s).1, (client r s).2⟩ := by
  rw [sendAfter, Run.account_bind_of_ok (Run.account_sendCounted r s)]
  cases (client r s).1 <;> exact congrArg (Account.mk _ · _) (List.append_nil _)

/-- With a final answer a request ends. -/
theorem account_sendAfter_of_isFinal (h : IsFinal (client r s).1) (i left : Nat) :
    (retry.sendAfter r i left).account client s =
      ⟨(client r s).1.mapError .store, Act.sending r (client r s).1, (client r s).2⟩ := by
  cases left with
  | zero => exact retry.account_sendAfter_zero i
  | succ left =>
    rw [sendAfter, Run.account_bind_of_ok (Run.account_sendCounted r s)]
    cases hanswer : (client r s).1 with
    | ok answer => exact congrArg (Account.mk _ · _) (List.append_nil _)
    | error fault =>
      have hlasting : fault.isTransient = false := by rwa [hanswer] at h
      dsimp only
      rw [hlasting]
      exact congrArg (Account.mk _ · _) (List.append_nil _)

/-- A request that is answered with a result is sent once. -/
theorem account_request_of_ok {answer : r.Answer} (h : (client r s).1 = .ok answer) :
    (retry.request r).account client s = ⟨.ok answer, Act.sending r (.ok answer), (client r s).2⟩ := by
  have hfinal : IsFinal (client r s).1 := h ▸ trivial
  rw [request, retry.account_sendAfter_of_isFinal hfinal, h]
  rfl

/-- After any other answer it is counted as a repetition, and sent again after a wait. -/
theorem account_sendAfter_of_not_isFinal (h : ¬IsFinal (client r s).1) (i left : Nat) :
    (retry.sendAfter r i (left + 1)).account client s =
      ((retry.sendAfter r (i + 1) left).account client (client r s).2).behind
        (Act.sending r (client r s).1 ++ [.count .transientRetries 1, .wait (retry.delay i)]) := by
  rw [sendAfter, Run.account_bind_of_ok (Run.account_sendCounted r s)]
  cases hanswer : (client r s).1 with
  | ok answer =>
    rw [hanswer] at h
    exact absurd trivial h
  | error fault =>
    have htransient : fault.isTransient = true := by
      rw [hanswer] at h
      simpa [IsFinal] using h
    dsimp only
    rw [htransient, if_pos rfl, Run.account_count_bind, Run.account_wait_bind,
      Account.behind_behind, Account.behind_behind, List.append_assoc]
    rfl

end

section

variable (retry : RetryConfig) (client : Client σ) (r : Request) (s : σ)

/-- With some repetitions left a request is repeated until an answer is final or none is left. -/
theorem account_sendAfter : ∀ left i, ∃ more ≤ left,
    (∀ j < more, ¬IsFinal (client.answers r s (i + j))) ∧
      (more < left → IsFinal (client.answers r s (i + more))) ∧
      (retry.sendAfter r i left).account client (client.after r s i) =
        ⟨(client.answers r s (i + more)).mapError .store,
          retry.attempts r (client.answers r s) i more, client.after r s (i + more + 1)⟩ := by
  intro left
  induction left with
  | zero =>
    intro i
    exact ⟨0, Nat.le_refl 0, by simp, by simp, retry.account_sendAfter_zero i⟩
  | succ left ih =>
    intro i
    by_cases hfinal : IsFinal (client.answers r s i)
    · exact ⟨0, Nat.zero_le _, by simp, fun _ => hfinal, retry.account_sendAfter_of_isFinal hfinal i _⟩
    · obtain ⟨more, hle, hopen, hlast, haccount⟩ := ih (i + 1)
      have hshift : ∀ j, i + 1 + j = i + (j + 1) := fun j => by omega
      simp only [hshift] at hopen hlast haccount
      refine ⟨more + 1, Nat.succ_le_succ hle, fun j hj => ?_, fun hlt => hlast (by omega), ?_⟩
      · cases j with
        | zero => exact hfinal
        | succ j => exact hopen j (by omega)
      · rw [retry.account_sendAfter_of_not_isFinal hfinal]
        change Account.behind _ ((retry.sendAfter r (i + 1) left).account client
          (client.after r s (i + 1))) = _
        rw [haccount]
        exact congrArg (Account.mk _ · _) (List.append_assoc _ _ _)

/-- What is done for a request: it is sent until an answer is final, or no repetition is left. -/
theorem account_request : ∃ more ≤ retry.repetitions,
    (∀ i < more, ¬IsFinal (client.answers r s i)) ∧
      (more < retry.repetitions → IsFinal (client.answers r s more)) ∧
      (retry.request r).account client s =
        ⟨(client.answers r s more).mapError .store,
          retry.attempts r (client.answers r s) 0 more, client.after r s (more + 1)⟩ := by
  have haccount := retry.account_sendAfter client r s retry.repetitions 0
  simp only [Nat.zero_add] at haccount
  exact haccount

variable {client r s} in
/-- A run that starts with a request and in which none fails has the request answered at once. -/
theorem account_request_bind_of_noneFails {f : r.Answer → Run α}
    (h : ((retry.request r >>= f).account client s).NoneFails) : ∃ answer s',
      client r s = (.ok answer, s') ∧ ((f answer).account client s').NoneFails ∧
      (retry.request r >>= f).account client s =
        ((f answer).account client s').behind (Act.sending r (.ok answer)) := by
  cases hanswer : client r s with
  | mk first s' =>
    cases first with
    | error fault =>
      obtain ⟨more, -, -, -, haccount⟩ := retry.account_request client r s
      have hmem : .exchange ⟨r, client.answers r s 0⟩ ∈ ((retry.request r).account client s).acts := by
        rw [haccount]
        exact retry.exchange_mem_attempts _ 0 more
      have hfault : client.answers r s 0 = .error fault := congrArg Prod.fst hanswer
      rw [hfault] at hmem
      cases h _ (Run.mem_acts_bind hmem f)
    | ok answer =>
      have hrequest := retry.account_request_of_ok (congrArg Prod.fst hanswer)
      rw [hanswer] at hrequest
      rw [Run.account_bind_of_ok hrequest] at h ⊢
      exact ⟨answer, s', rfl, h.of_behind, rfl⟩

/-- A request is made until it is answered with a result or with a fault that is not transient, but as often
as it may be attempted at most, and once in any case. It ends with the last answer. What is made more than
once is counted, and there is a wait before each repetition, which doubles up to the longest wait. No wait is
longer than that, and the attempts can be numbered in 32-bit words. -/
theorem request_calls (w : World σ) :
    let ended := (retry.request r).run.run client w
    let answers := client.answers r w.store
    ∃ n, 0 < n ∧ n ≤ max 1 retry.maxAttempts.toNat ∧
      (∀ i, i + 1 < n → ¬IsFinal (answers i)) ∧
      (n < max 1 retry.maxAttempts.toNat → IsFinal (answers (n - 1))) ∧
      ended.1 = (answers (n - 1)).mapError .store ∧
      ended.2.requests = w.requests ++ List.replicate n r ∧
      ended.2.stats.get .transientRetries = w.stats.get .transientRetries + UInt64.ofNat (n - 1) ∧
      ended.2.waits = w.waits ++ (List.range (n - 1)).map (fun i =>
        min (retry.baseDelay.toNat * 2 ^ i) retry.maxDelay.toNat) ∧
      ∀ i < n, (UInt32.ofNat i + 1).toNat = i + 1 := by
  intro ended answers
  obtain ⟨more, hle, hopen, hfinal, haccount⟩ := retry.account_request client r w.store
  obtain ⟨hresult, -, hrecords⟩ := Dialogue.records_run client (retry.request r).run w
  have haccount : (retry.request r).run.account client w.store = _ := haccount
  rw [haccount] at hresult hrecords
  have hrepetitions : retry.repetitions + 1 = max 1 retry.maxAttempts.toNat := by
    unfold repetitions
    omega
  refine ⟨more + 1, Nat.succ_pos more, by omega, fun i hi => hopen i (by omega),
    fun hlt => hfinal (by omega), hresult, ?_, ?_, ?_, fun i hi => ?_⟩
  · rw [hrecords.requests, requests_attempts]
  · rw [hrecords.stats, adds_attempts, Nat.add_sub_cancel]
  · rw [hrecords.waits, waits_attempts, Nat.add_sub_cancel, List.range_eq_range']
    exact congrArg _ (List.map_congr_left fun i _ => retry.delay_eq i)
  · have hword := retry.maxAttempts.toNat_lt
    simp only [UInt32.toNat_add, UInt32.toNat_ofNat', UInt32.toNat_one]
    omega

end

end RetryConfig

end KeyedQuery
