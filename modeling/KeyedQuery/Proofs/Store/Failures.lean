import KeyedQuery.Proofs.Store.Memory

/-!
# Scripted failures

A request meets the first failure that is scripted for its kind, or it is carried out
(`Memory.receive_cases`). It is repeated until no failure is left for its kind, so it succeeds if these
are transient and not more than its repetitions (`Memory.Bears`), and then it is carried out as if they
had not been scripted (`Memory.of_request_eq_ok`).
-/

namespace KeyedQuery

namespace Memory

variable {m : Memory} {r : Request} {kind : RequestKind} {n : Nat}

/-- The failures scripted for a kind are transient, and not more than the given number. -/
structure Bears (m : Memory) (kind : RequestKind) (n : Nat) : Prop where
  transient : ∀ f ∈ m.failures, f.1 = kind → f.2.isTransient = true
  length_le : (m.failures.filter fun f => f.1 = kind).length ≤ n

/-- The memory without the failures for a kind. -/
def without (m : Memory) (kind : RequestKind) : Memory :=
  { m with failures := m.failures.filter fun f => f.1 ≠ kind }

theorem Bears.mono (h : m.Bears kind n) {n' : Nat} (hle : n ≤ n') : m.Bears kind n' :=
  ⟨h.transient, Nat.le_trans h.length_le hle⟩

theorem Bears.of_sublist (h : m.Bears kind n) {m' : Memory}
    (hfailures : m'.failures.Sublist m.failures) : m'.Bears kind n where
  transient f hf := h.transient f (hfailures.subset hf)
  length_le := Nat.le_trans (hfailures.filter _).length_le h.length_le

theorem bears_of_unscripted (h : ∀ f ∈ m.failures, f.1 ≠ kind) : m.Bears kind n where
  transient f hf hkind := absurd hkind (h f hf)
  length_le := by
    rw [List.filter_eq_nil_iff.mpr fun f hf => by simpa using h f hf]
    exact Nat.zero_le n

theorem without_of_unscripted (h : ∀ f ∈ m.failures, f.1 ≠ kind) : m.without kind = m := by
  unfold without
  rw [List.filter_eq_self.mpr fun f hf => by simpa using h f hf]

/-- Failures for one kind say nothing about another. -/
theorem Bears.of_without {other : RequestKind} (h : (m.without other).Bears kind n)
    (hne : kind ≠ other) : m.Bears kind n where
  transient f hf hkind := h.transient f (List.mem_filter.mpr ⟨hf, by simp [hkind, hne]⟩) hkind
  length_le := by
    have hlength := h.length_le
    rw [without, List.filter_filter] at hlength
    have hfilter : (m.failures.filter fun f => decide (f.1 = kind) && decide (f.1 ≠ other)) =
        m.failures.filter fun f => f.1 = kind := by
      refine List.filter_congr fun f _ => ?_
      by_cases hf : f.1 = kind <;> simp [hf, hne]
    rwa [hfilter] at hlength

/-! ## Single requests -/

/-- A request that is refused leaves the memory as it is. -/
theorem perform_of_error {fault : StoreFault} (h : (m.perform r).1 = .error fault) :
    (m.perform r).2 = m := by
  have hcommit : ∀ {α : Type} {change : Except StoreFault (α × Memory)},
      (m.commit change).1 = .error fault → (m.commit change).2 = m := by
    intro α change h
    cases change with
    | ok pair => cases h
    | error fault => rfl
  cases r with
  | page q => rfl
  | batchGet table keys =>
    show (m.batchGet table keys).2 = m
    have h : (m.batchGet table keys).1 = .error fault := h
    unfold batchGet at h ⊢
    split
    · rfl
    · rename_i hlength
      rw [if_neg hlength] at h
      split
      · rename_i rounds hrounds
        rw [hrounds] at h
        cases h
      · rfl
  | transact _ _ | put _ _ | update _ _ _ _ _ | delete _ _ => exact hcommit h

/-- A request is carried out, or it meets the first failure that is scripted for its kind. -/
theorem receive_cases (m : Memory) (r : Request) :
    (∀ f ∈ m.failures, f.1 ≠ r.kind) ∧ receive r m = m.perform r ∨
    ∃ before fault after, m.failures = before ++ (r.kind, fault) :: after ∧
      receive r m = (.error fault, { m with failures := before ++ after }) := by
  cases hi : m.failures.findIdx? fun f => f.1 = r.kind with
  | none =>
    have hnone : ∀ f ∈ m.failures, f.1 ≠ r.kind := by simpa using List.findIdx?_eq_none_iff.mp hi
    exact .inl ⟨hnone, receive_of_unscripted hnone⟩
  | some i =>
    obtain ⟨hlt, hkind, -⟩ := List.findIdx?_eq_some_iff_getElem.mp hi
    have hkind : m.failures[i].1 = r.kind := of_decide_eq_true hkind
    refine .inr ⟨m.failures.take i, m.failures[i].2, m.failures.drop (i + 1), ?_, ?_⟩
    · rw [← hkind, Prod.mk.eta, List.getElem_cons_drop, List.take_append_drop]
    · unfold receive takeFailure?
      rw [hi, Option.bind_some, List.getElem?_eq_getElem hlt, Option.map_some,
        List.eraseIdx_eq_take_drop_succ]

/-! ## Repeated requests -/

/-- A failure for a kind is borne by one repetition. -/
theorem Bears.of_append {before after : List (RequestKind × StoreFault)} {fault : StoreFault}
    (hfailures : m.failures = before ++ (kind, fault) :: after)
    (htransient : fault.isTransient = true)
    (h : Bears { m with failures := before ++ after } kind n) : m.Bears kind (n + 1) where
  transient f hf hkind := by
    rw [hfailures, List.mem_append, List.mem_cons] at hf
    rcases hf with hf | rfl | hf
    · exact h.transient f (List.mem_append_left _ hf) hkind
    · exact htransient
    · exact h.transient f (List.mem_append_right _ hf) hkind
  length_le := by
    have hlength := h.length_le
    rw [hfailures]
    simp only [List.filter_append, List.length_append, List.filter_cons, decide_true, if_true,
      List.length_cons] at hlength ⊢
    omega

/-- A failure that is borne uses a repetition up. -/
theorem Bears.exists_left (h : m.Bears kind n) {before after : List (RequestKind × StoreFault)}
    {fault : StoreFault} (hfailures : m.failures = before ++ (kind, fault) :: after) :
    fault.isTransient = true ∧
      ∃ n', n = n' + 1 ∧ Bears { m with failures := before ++ after } kind n' := by
  have hlength := h.length_le
  rw [hfailures] at hlength
  simp only [List.filter_append, List.length_append, List.filter_cons, decide_true, if_true,
    List.length_cons] at hlength
  refine ⟨h.transient (kind, fault) (by simp [hfailures]) rfl, n - 1, by omega, fun f hf => ?_, ?_⟩
  · refine h.transient f ?_
    rw [hfailures]
    exact ((List.sublist_cons_self _ after).append_left before).subset hf
  · simp only [List.filter_append, List.length_append]
    omega

theorem without_of_append {before after : List (RequestKind × StoreFault)} {fault : StoreFault}
    (hfailures : m.failures = before ++ (kind, fault) :: after) :
    Memory.without { m with failures := before ++ after } kind = m.without kind := by
  unfold without
  rw [hfailures]
  simp

/-- Without failures for its kind nothing has to be borne. -/
theorem bears_of_perform_eq_ok (hnone : ∀ f ∈ m.failures, f.1 ≠ r.kind) {answer : r.Answer}
    (h : (m.perform r).1 = .ok answer) :
    m.Bears r.kind n ∧ (m.without r.kind).perform r = (.ok answer, (m.perform r).2) := by
  rw [without_of_unscripted hnone]
  exact ⟨bears_of_unscripted hnone, Prod.ext h rfl⟩

theorem of_sendAfter_eq_ok {retry : RetryConfig} {answer : r.Answer} {left repetitions : Nat}
    {w : World Memory}
    (h : ((retry.sendAfter r repetitions left).run.run receive w).1 = .ok answer) :
    w.store.Bears r.kind left ∧
      (w.store.without r.kind).perform r =
        (.ok answer, ((retry.sendAfter r repetitions left).run.run receive w).2.store) := by
  induction left generalizing repetitions w with
  | zero =>
    obtain ⟨world, next, hworld, -, hrun⟩ := retry.run_sendAfter receive r repetitions 0 w
    rw [hrun] at h ⊢
    rcases w.store.receive_cases r with ⟨hnone, hreceive⟩ | ⟨before, fault, after, -, hreceive⟩
    · rw [hreceive] at hworld h ⊢
      cases hanswer : (w.store.perform r).1 with
      | error fault =>
        rw [hanswer] at h
        cases h
      | ok a =>
        rw [hanswer] at h
        obtain rfl := Except.ok.inj h
        exact hworld ▸ bears_of_perform_eq_ok hnone hanswer
    · rw [hreceive] at h
      cases h
  | succ left ih =>
    obtain ⟨world, next, hworld, hnext, hrun⟩ :=
      retry.run_sendAfter receive r repetitions (left + 1) w
    rw [hrun] at h ⊢
    rcases w.store.receive_cases r with ⟨hnone, hreceive⟩ |
      ⟨before, fault, after, hfailures, hreceive⟩
    · rw [hreceive] at hworld hnext h ⊢
      cases hanswer : (w.store.perform r).1 with
      | error fault =>
        -- The refused request left the memory as it was, so it is repeated there.
        rw [hanswer] at h
        rw [perform_of_error hanswer] at hnext
        dsimp only at h ⊢
        split at h
        · rename_i htransient
          obtain ⟨hbears, hperform⟩ := ih h
          rw [hnext] at hbears hperform
          rw [if_pos htransient]
          exact ⟨hbears.mono (Nat.le_succ left), hperform⟩
        · cases h
      | ok a =>
        rw [hanswer] at h
        obtain rfl := Except.ok.inj h
        exact hworld ▸ bears_of_perform_eq_ok hnone hanswer
    · rw [hreceive] at hnext h ⊢
      dsimp only at h ⊢
      split at h
      · rename_i htransient
        obtain ⟨hbears, hperform⟩ := ih h
        rw [hnext] at hbears hperform
        rw [without_of_append hfailures] at hperform
        rw [if_pos htransient]
        exact ⟨.of_append hfailures htransient hbears, hperform⟩
      · cases h

/-- A request that succeeded after repetitions has borne the failures for its kind, and has been
carried out in the memory without them. -/
theorem of_request_eq_ok {retry : RetryConfig} {answer : r.Answer} {w : World Memory}
    (h : ((retry.request r).run.run receive w).1 = .ok answer) :
    w.store.Bears r.kind retry.repetitions ∧
      (w.store.without r.kind).perform r =
        (.ok answer, ((retry.request r).run.run receive w).2.store) :=
  of_sendAfter_eq_ok h

theorem run_sendAfter_of_unscripted (retry : RetryConfig) (h : ∀ f ∈ m.failures, f.1 ≠ r.kind)
    (left repetitions : Nat) {w : World Memory} (hw : w.store = m) :
    ∃ world : World Memory, world.store = (m.perform r).2 ∧
      (retry.sendAfter r repetitions left).run.run receive w =
        ((m.perform r).1.mapError .store, world) := by
  induction left generalizing repetitions w with
  | zero =>
    obtain ⟨world, next, hworld, -, hrun⟩ := retry.run_sendAfter receive r repetitions 0 w
    rw [hw, receive_of_unscripted h] at hworld hrun
    refine ⟨world, hworld, hrun.trans ?_⟩
    cases (m.perform r).1 <;> rfl
  | succ left ih =>
    obtain ⟨world, next, hworld, hnext, hrun⟩ :=
      retry.run_sendAfter receive r repetitions (left + 1) w
    rw [hw, receive_of_unscripted h] at hworld hnext hrun
    cases hanswer : (m.perform r).1 with
    | ok answer =>
      rw [hanswer] at hrun
      exact ⟨world, hworld, hrun⟩
    | error fault =>
      rw [hanswer] at hrun
      dsimp only at hrun
      split at hrun
      · obtain ⟨final, hfinal, hrest⟩ :=
          ih (repetitions + 1) (hnext.trans (perform_of_error hanswer))
        rw [hanswer] at hrest
        exact ⟨final, hfinal, hrun.trans hrest⟩
      · exact ⟨world, hworld, hrun⟩

/-- Without failures for its kind a request ends as it is carried out. -/
theorem run_request (retry : RetryConfig) {w : World Memory}
    (h : ∀ f ∈ w.store.failures, f.1 ≠ r.kind) :
    ∃ world : World Memory, world.store = (w.store.perform r).2 ∧
      (retry.request r).run.run receive w = ((w.store.perform r).1.mapError .store, world) :=
  run_sendAfter_of_unscripted retry h _ 0 rfl

end Memory

end KeyedQuery
