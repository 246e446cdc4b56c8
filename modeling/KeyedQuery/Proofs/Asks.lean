import KeyedQuery.Proofs.Dialogue

/-!
# What dialogues ask

`Run.Asks φ p` says that every request that a dialogue may send satisfies `φ`, whatever it is answered.
If the store answers such requests without changing, the dialogue needs no store: what it ends with is
its `Run.value` under the answers (`Dialogue.run_eq_value`), and the value of a dialogue in several
parts is that of the parts, as for programs without requests. One that does not wait under these answers
(`Run.IsPrompt`) does not give way to others (`Dialogue.IsPrompt.exists_run`).
-/

namespace KeyedQuery

variable {α β σ : Type} {φ ψ : Request → Prop}
  {answer : (r : Request) → Except StoreFault r.Answer}

namespace Dialogue

/-- Every request that the dialogue may send has a property. -/
def Asks (φ : Request → Prop) : Dialogue α → Prop
  | .done _ => True
  | .ask r next => φ r ∧ ∀ answer, (next answer).Asks φ
  | .sleep _ next => next.Asks φ
  | .tally _ _ next => next.Asks φ

/-- What the dialogue ends with if every request gets an answer that depends on nothing else. -/
def value (answer : (r : Request) → Except StoreFault r.Answer) : Dialogue α → α
  | .done a => a
  | .ask r next => (next (answer r)).value answer
  | .sleep _ next => next.value answer
  | .tally _ _ next => next.value answer

theorem Asks.bind {p : Dialogue α} {f : α → Dialogue β} (hp : p.Asks φ) (hf : ∀ a, (f a).Asks φ) :
    (p >>= f).Asks φ := by
  induction p with
  | done a => exact hf a
  | ask r next ih => exact ⟨hp.1, fun answer => ih answer (hp.2 answer)⟩
  | sleep ms next ih => exact ih hp
  | tally c n next ih => exact ih hp

theorem Asks.mono {p : Dialogue α} (hp : p.Asks φ) (h : ∀ r, φ r → ψ r) : p.Asks ψ := by
  induction p with
  | done a => trivial
  | ask r next ih => exact ⟨h r hp.1, fun answer => ih answer (hp.2 answer)⟩
  | sleep ms next ih => exact ih hp
  | tally c n next ih => exact ih hp

/-- What is recorded of a dialogue besides what was recorded before has the property. -/
theorem Asks.mem_requests {client : Client σ} {p : Dialogue α} (hp : p.Asks φ) {w : World σ}
    {r : Request} (hr : r ∈ (p.run client w).2.requests) : r ∈ w.requests ∨ φ r := by
  induction p generalizing w with
  | done a => exact .inl hr
  | ask sent next ih =>
    rcases ih _ (hp.2 _) hr with hold | hnew
    · rcases List.mem_append.mp hold with hold | hsent
      · exact .inl hold
      · exact .inr (List.mem_singleton.mp hsent ▸ hp.1)
    · exact .inr hnew
  | sleep ms next ih => exact ih (w := w.sleep ms) hp hr
  | tally c n next ih => exact ih (w := w.count c n) hp hr

theorem value_bind (p : Dialogue α) (f : α → Dialogue β) :
    (p >>= f).value answer = (f (p.value answer)).value answer := by
  induction p with
  | done a => rfl
  | ask r next ih => exact ih _
  | sleep ms next ih => exact ih
  | tally c n next ih => exact ih

/-- A store that stays as it is can be replaced by its answers. -/
theorem run_eq_value {client : Client σ} {s : σ} (hclient : ∀ r, φ r → client r s = (answer r, s))
    {p : Dialogue α} (hp : p.Asks φ) (w : World σ) (hw : w.store = s) :
    (p.run client w).1 = p.value answer ∧ (p.run client w).2.store = s := by
  induction p generalizing w with
  | done a => exact ⟨rfl, hw⟩
  | ask r next ih =>
    have hreceive : w.receive client r =
        (answer r, { w with store := s, requests := w.requests ++ [r] }) := by
      rw [World.receive, hw, hclient r hp.1]
    rw [run, hreceive]
    exact ih _ (hp.2 _) _ rfl
  | sleep ms next ih => exact ih hp _ hw
  | tally c n next ih => exact ih hp _ hw

end Dialogue

namespace Run

/-- Every request that the dialogue may send has a property. -/
def Asks (φ : Request → Prop) (p : Run α) : Prop :=
  Dialogue.Asks φ p.run

/-- What the dialogue ends with if every request gets an answer that depends on nothing else. -/
def value (answer : (r : Request) → Except StoreFault r.Answer) (p : Run α) : Except Fault α :=
  p.run.value answer

variable {p : Run α} {f : α → Run β}

namespace Asks

theorem pure (a : α) : Asks φ (Pure.pure a) :=
  trivial

theorem throw (fault : Fault) : Asks φ (MonadExcept.throw fault : Run α) :=
  trivial

theorem bind (hp : Asks φ p) (hf : ∀ a, Asks φ (f a)) : Asks φ (p >>= f) :=
  Dialogue.Asks.bind hp fun result => by
    cases result with
    | ok a => exact hf a
    | error fault => trivial

theorem mono (hp : Asks φ p) (h : ∀ r, φ r → ψ r) : Asks ψ p :=
  Dialogue.Asks.mono hp h

theorem ofExcept (e : Except Fault α) : Asks φ (Run.ofExcept e) :=
  trivial

theorem ofExcept_bind {e : Except Fault α} (hf : ∀ a, e = .ok a → Asks φ (f a)) :
    Asks φ (Run.ofExcept e >>= f) := by
  cases e with
  | ok a => exact hf a rfl
  | error fault => trivial

theorem count (c : Counter) (n : UInt64) : Asks φ (Run.count c n) :=
  trivial

theorem wait (ms : Nat) : Asks φ (Run.ofDialogue (Dialogue.wait ms)) :=
  trivial

theorem sendCounted {r : Request} (h : φ r) :
    Asks φ (Run.ofDialogue (Dialogue.sendCounted r)) := by
  unfold Dialogue.sendCounted
  split <;> exact ⟨h, fun _ => trivial⟩

theorem request {r : Request} (retry : RetryConfig) (h : φ r) : Asks φ (retry.request r) := by
  have hsend : ∀ left repetitions, Asks φ (retry.sendAfter r repetitions left) := by
    intro left
    induction left with
    | zero =>
      intro repetitions
      rw [RetryConfig.sendAfter]
      refine (sendCounted h).bind fun answer => ?_
      cases answer with
      | ok answer => exact pure _
      | error fault => exact throw _
    | succ left ih =>
      intro repetitions
      rw [RetryConfig.sendAfter]
      refine (sendCounted h).bind fun answer => ?_
      cases answer with
      | ok answer => exact pure _
      | error fault =>
        dsimp only
        split
        · exact (count _ _).bind fun _ => (wait _).bind fun _ => ih _
        · exact throw _
  exact hsend _ 0

/-- What is recorded of two parts is asked by the first, or by the second of what the first ended with. -/
theorem mem_requests_bind {client : Client σ} {w : World σ} {r : Request} {χ : α → Request → Prop}
    (hp : Asks φ p) (hf : ∀ a, Asks (χ a) (f a)) (hr : r ∈ ((p >>= f).run.run client w).2.requests) :
    r ∈ w.requests ∨ φ r ∨ ∃ a, (p.run.run client w).1 = .ok a ∧ χ a r := by
  have hfirst : r ∈ (p.run.run client w).2.requests → r ∈ w.requests ∨ φ r :=
    Dialogue.Asks.mem_requests hp
  rw [Run.run_bind] at hr
  cases hend : (p.run.run client w).1 with
  | error fault =>
    rw [hend] at hr
    exact (hfirst hr).imp_right .inl
  | ok a =>
    rw [hend] at hr
    rcases Dialogue.Asks.mem_requests (hf a) hr with hold | hnew
    · exact (hfirst hold).imp_right .inl
    · exact .inr (.inr ⟨a, rfl, hnew⟩)

end Asks

@[simp]
theorem value_pure (a : α) : value answer (pure a) = .ok a :=
  rfl

@[simp]
theorem value_throw (fault : Fault) : value answer (throw fault : Run α) = .error fault :=
  rfl

@[simp]
theorem value_ofExcept (e : Except Fault α) : value answer (ofExcept e) = e :=
  rfl

@[simp]
theorem value_count (c : Counter) (n : UInt64) : value answer (count c n) = .ok () :=
  rfl

@[simp]
theorem value_bind (p : Run α) (f : α → Run β) :
    value answer (p >>= f) = value answer p >>= fun a => value answer (f a) := by
  refine (Dialogue.value_bind p.run _).trans ?_
  show Dialogue.value answer (ExceptT.bindCont f (Dialogue.value answer p.run)) =
    Dialogue.value answer p.run >>= fun a => value answer (f a)
  cases Dialogue.value answer p.run <;> rfl

theorem value_mapM {f : α → Run β} {g : α → β} : ∀ {xs : List α},
    (∀ x ∈ xs, value answer (f x) = .ok (g x)) → value answer (xs.mapM f) = .ok (xs.map g)
  | [], _ => rfl
  | x :: xs, h => by
    rw [List.mapM_cons, value_bind, h x List.mem_cons_self]
    show (value answer (xs.mapM f >>= fun ys => pure (g x :: ys))) = _
    rw [value_bind, value_mapM fun y hy => h y (List.mem_cons_of_mem x hy)]
    rfl

/-- Repeating a request gives the same answer again. -/
theorem value_request (retry : RetryConfig) (r : Request) :
    value answer (retry.request r) = (answer r).mapError .store := by
  have hcounted : value answer (ofDialogue (Dialogue.sendCounted r)) = .ok (answer r) := by
    unfold Dialogue.sendCounted
    split <;> rfl
  have hsend : ∀ left repetitions,
      value answer (retry.sendAfter r repetitions left) = (answer r).mapError .store := by
    intro left
    induction left with
    | zero =>
      intro repetitions
      rw [RetryConfig.sendAfter, value_bind, hcounted]
      cases answer r <;> rfl
    | succ left ih =>
      intro repetitions
      rw [RetryConfig.sendAfter, value_bind, hcounted]
      have hnext := ih (repetitions + 1)
      cases hr : answer r with
      | ok a => rfl
      | error fault =>
        rw [hr] at hnext
        show value answer (if fault.isTransient then _ else _) = _
        split
        · exact hnext
        · rfl
  exact hsend _ 0

end Run

/-! ## Dialogues that do not wait -/

/-- The dialogue does not wait if every request gets an answer that depends on nothing else. -/
def Dialogue.IsPrompt (answer : (r : Request) → Except StoreFault r.Answer) : Dialogue α → Prop
  | .done _ => True
  | .ask r next => (next (answer r)).IsPrompt answer
  | .sleep _ _ => False
  | .tally _ _ next => next.IsPrompt answer

namespace Dialogue.IsPrompt

theorem bind {p : Dialogue α} {f : α → Dialogue β} (hp : p.IsPrompt answer)
    (hf : (f (p.value answer)).IsPrompt answer) : (p >>= f).IsPrompt answer := by
  induction p with
  | done a => exact hf
  | ask r next ih => exact ih _ hp hf
  | sleep ms next ih => exact hp.elim
  | tally c n next ih => exact ih hp hf

/-- Against a store that stays as it is the dialogue comes to its end before it waits, and takes no
place. -/
theorem exists_run {client : Client σ} {s : σ} (hclient : ∀ r, φ r → client r s = (answer r, s))
    {p : Dialogue α} (h : p.IsPrompt answer) (hp : p.Asks φ) (w : World σ) (hw : w.store = s) :
    ∃ world : World σ, world.store = s ∧ world.places = w.places ∧
      p.run client w = (p.value answer, world) ∧
      p.runToWait client w = (.inl (p.value answer), world) := by
  induction p generalizing w with
  | done a => exact ⟨w, hw, rfl, rfl, rfl⟩
  | ask r next ih =>
    have hreceive : w.receive client r =
        (answer r, { w with store := s, requests := w.requests ++ [r] }) := by
      rw [World.receive, hw, hclient r hp.1]
    rw [run, runToWait, hreceive]
    exact ih _ h (hp.2 _) { w with store := s, requests := w.requests ++ [r] } rfl
  | sleep ms next ih => exact h.elim
  | tally c n next ih => exact ih h hp (w.count c n) hw

end Dialogue.IsPrompt

/-- The dialogue does not wait if every request gets an answer that depends on nothing else. -/
def Run.IsPrompt (answer : (r : Request) → Except StoreFault r.Answer) (p : Run α) : Prop :=
  Dialogue.IsPrompt answer p.run

namespace Run.IsPrompt

variable {p : Run α} {f : α → Run β}

theorem pure (a : α) : IsPrompt answer (Pure.pure a) :=
  trivial

theorem bind (hp : IsPrompt answer p) (hf : ∀ a, p.value answer = .ok a → IsPrompt answer (f a)) :
    IsPrompt answer (p >>= f) := by
  refine Dialogue.IsPrompt.bind hp ?_
  show Dialogue.IsPrompt answer (ExceptT.bindCont f (p.value answer))
  cases hvalue : p.value answer with
  | ok a => exact hf a hvalue
  | error fault => trivial

theorem mapM {f : α → Run β} : ∀ {xs : List α}, (∀ x ∈ xs, IsPrompt answer (f x)) →
    IsPrompt answer (xs.mapM f)
  | [], _ => pure []
  | x :: xs, h => by
    rw [List.mapM_cons]
    exact (h x List.mem_cons_self).bind fun y _ =>
      (mapM fun z hz => h z (List.mem_cons_of_mem x hz)).bind fun ys _ => pure _

/-- A request that is answered is not repeated. -/
theorem request {r : Request} (retry : RetryConfig) {a : r.Answer} (h : answer r = .ok a) :
    IsPrompt answer (retry.request r) := by
  have hcounted : IsPrompt answer (ofDialogue (Dialogue.sendCounted r)) ∧
      value answer (ofDialogue (Dialogue.sendCounted r)) = .ok (.ok a) := by
    unfold Dialogue.sendCounted
    split <;> exact ⟨trivial, congrArg Except.ok h⟩
  unfold RetryConfig.request
  cases retry.repetitions with
  | zero =>
    rw [RetryConfig.sendAfter]
    refine hcounted.1.bind fun result hresult => ?_
    obtain rfl := Except.ok.inj (hcounted.2.symm.trans hresult)
    exact pure a
  | succ left =>
    rw [RetryConfig.sendAfter]
    refine hcounted.1.bind fun result hresult => ?_
    obtain rfl := Except.ok.inj (hcounted.2.symm.trans hresult)
    exact pure a

end Run.IsPrompt

end KeyedQuery
