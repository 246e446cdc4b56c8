import KeyedQuery.Proofs.Asks
import KeyedQuery.Proofs.Interleaving

/-!
# Dialogues that keep to some requests

`Run.KeepsTo φ Q p` says of a dialogue that whatever it is answered, it sends only requests that satisfy
`φ`, and that a result with which it ends satisfies `Q`. Nothing is assumed of the store, so others may
use it in the meantime. `Run.StaysIn φ E p` says in the same way with which faults it may end.

Any number of dialogues that use one store take turns, step by step and in any order
(`Dialogue.takeTurns`). If they keep to requests each of which preserves an invariant of the store and of
the record of requests, the invariant holds after every turn (`Dialogue.KeepsTo.takeTurns`).
-/

namespace KeyedQuery

variable {α β σ : Type} {φ : Request → Prop}

namespace Dialogue

/-- Every request that the dialogue may send satisfies `φ`, and every result with which it may end
satisfies `Q`. -/
def KeepsTo (φ : Request → Prop) (Q : α → Prop) : Dialogue α → Prop
  | .done a => Q a
  | .ask r next => φ r ∧ ∀ answer, (next answer).KeepsTo φ Q
  | .sleep _ next => next.KeepsTo φ Q
  | .tally _ _ next => next.KeepsTo φ Q

/-- Do the given number of things of several dialogues: at each turn the next one of the dialogue at a
position, or nothing if there is no such dialogue. -/
def takeTurns (client : Client σ) :
    List Nat → List (Dialogue α) → World σ → List (Dialogue α) × World σ
  | [], ps, w => (ps, w)
  | i :: turns, ps, w =>
    match ps[i]? with
    | some p =>
      let (p, w) := p.step client w
      takeTurns client turns (ps.set i p) w
    | none => takeTurns client turns ps w

namespace KeepsTo

variable {p : Dialogue α} {Q : α → Prop} {R : β → Prop}

theorem bind {f : α → Dialogue β} (hp : p.KeepsTo φ Q) (hf : ∀ a, Q a → (f a).KeepsTo φ R) :
    (p >>= f).KeepsTo φ R := by
  induction p with
  | done a => exact hf a hp
  | ask r next ih => exact ⟨hp.1, fun answer => ih answer (hp.2 answer)⟩
  | sleep ms next ih => exact ih hp
  | tally c n next ih => exact ih hp

theorem of_asks (hp : p.Asks φ) (hQ : ∀ a, Q a) : p.KeepsTo φ Q := by
  induction p with
  | done a => exact hQ a
  | ask r next ih => exact ⟨hp.1, fun answer => ih answer (hp.2 answer)⟩
  | sleep ms next ih => exact ih hp
  | tally c n next ih => exact ih hp

theorem asks (hp : p.KeepsTo φ Q) : p.Asks φ := by
  induction p with
  | done a => trivial
  | ask r next ih => exact ⟨hp.1, fun answer => ih answer (hp.2 answer)⟩
  | sleep ms next ih => exact ih hp
  | tally c n next ih => exact ih hp

theorem imp {ψ : Request → Prop} {R : α → Prop} (hp : p.KeepsTo φ Q) (hφ : ∀ r, φ r → ψ r)
    (hQ : ∀ a, Q a → R a) : p.KeepsTo ψ R := by
  induction p with
  | done a => exact hQ a hp
  | ask r next ih => exact ⟨hφ r hp.1, fun answer => ih answer (hp.2 answer)⟩
  | sleep ms next ih => exact ih hp
  | tally c n next ih => exact ih hp

variable {client : Client σ} {J : σ → List Request → Prop}

/-- A run keeps what each request preserves, and ends with a result as stated. -/
theorem run (hJ : ∀ r s sent, φ r → J s sent → J (client r s).2 (sent ++ [r]))
    (hp : p.KeepsTo φ Q) {w : World σ} (hw : J w.store w.requests) :
    J (p.run client w).2.store (p.run client w).2.requests ∧ Q (p.run client w).1 := by
  induction p generalizing w with
  | done a => exact ⟨hw, hp⟩
  | ask r next ih => exact ih _ (hp.2 _) (hJ r w.store w.requests hp.1 hw)
  | sleep ms next ih => exact ih (w := w.sleep ms) hp hw
  | tally c n next ih => exact ih (w := w.count c n) hp hw

/-- A run ends with a result as stated. -/
theorem result (hp : p.KeepsTo φ Q) (client : Client σ) (w : World σ) : Q (p.run client w).1 :=
  (hp.run (J := fun _ _ => True) (fun _ _ _ _ _ => trivial) trivial).2

/-- Up to its first wait a run ends with a result as stated, and what is left behind the wait keeps to the
same requests. -/
theorem runToWait (hp : p.KeepsTo φ Q) (client : Client σ) (w : World σ) :
    match (p.runToWait client w).1 with
    | .inl a => Q a
    | .inr (_, rest) => rest.KeepsTo φ Q := by
  induction p generalizing w with
  | done a => exact hp
  | ask r next ih => exact ih _ (hp.2 _) _
  | sleep ms next ih => exact hp
  | tally c n next ih => exact ih hp _

/-- One step keeps what each request preserves, and what is left keeps to the same requests. -/
theorem step (hJ : ∀ r s sent, φ r → J s sent → J (client r s).2 (sent ++ [r]))
    (hp : p.KeepsTo φ Q) {w : World σ} (hw : J w.store w.requests) :
    J (p.step client w).2.store (p.step client w).2.requests ∧ (p.step client w).1.KeepsTo φ Q := by
  cases p with
  | done a => exact ⟨hw, hp⟩
  | ask r next => exact ⟨hJ r w.store w.requests hp.1 hw, hp.2 _⟩
  | sleep ms next => exact ⟨hw, hp⟩
  | tally c n next => exact ⟨hw, hp⟩

/-- What each of their requests preserves holds after all turns of dialogues that keep to such
requests. -/
theorem takeTurns (hJ : ∀ r s sent, φ r → J s sent → J (client r s).2 (sent ++ [r])) :
    ∀ (turns : List Nat) {ps : List (Dialogue α)} {w : World σ}, (∀ p ∈ ps, p.KeepsTo φ Q) →
      J w.store w.requests →
      J (Dialogue.takeTurns client turns ps w).2.store
        (Dialogue.takeTurns client turns ps w).2.requests
  | [], _, _, _, hw => hw
  | i :: turns, ps, w, hps, hw => by
    unfold Dialogue.takeTurns
    cases hi : ps[i]? with
    | none => exact takeTurns hJ turns hps hw
    | some p =>
      obtain ⟨hstep, hrest⟩ := step hJ (hps p (List.mem_of_getElem? hi)) hw
      refine takeTurns hJ turns (fun q hq => ?_) hstep
      rcases List.mem_or_eq_of_mem_set hq with hq | rfl
      · exact hps q hq
      · exact hrest

end KeepsTo

end Dialogue

namespace Run

/-- Every request that the dialogue may send satisfies `φ`, and a result with which it may end satisfies
`Q`. -/
def KeepsTo (φ : Request → Prop) (Q : α → Prop) (p : Run α) : Prop :=
  p.run.KeepsTo φ fun result => ∀ a, result = .ok a → Q a

namespace KeepsTo

variable {p : Run α} {f : α → Run β} {Q : α → Prop} {R : β → Prop} {e : Except Fault α}

theorem pure {a : α} (h : Q a) : KeepsTo φ Q (Pure.pure a) :=
  fun _ heq => Except.ok.inj heq ▸ h

theorem bind (hp : KeepsTo φ Q p) (hf : ∀ a, Q a → KeepsTo φ R (f a)) : KeepsTo φ R (p >>= f) :=
  Dialogue.KeepsTo.bind hp fun result hresult => by
    cases result with
    | ok a => exact hf a (hresult a rfl)
    | error fault => exact nofun

theorem of_asks (hp : Asks φ p) : KeepsTo φ (fun _ => True) p :=
  Dialogue.KeepsTo.of_asks hp fun _ _ _ => trivial

theorem ofExcept (h : ∀ a, e = .ok a → Q a) : KeepsTo φ Q (Run.ofExcept e) :=
  h

theorem ofExcept_bind (hf : ∀ a, e = .ok a → KeepsTo φ R (f a)) :
    KeepsTo φ R (Run.ofExcept e >>= f) :=
  (ofExcept fun _ ha => ha).bind hf

theorem imp {ψ : Request → Prop} {R : α → Prop} (hp : KeepsTo φ Q p) (hφ : ∀ r, φ r → ψ r)
    (hQ : ∀ a, Q a → R a) : KeepsTo ψ R p :=
  Dialogue.KeepsTo.imp hp hφ fun _ hresult a ha => hQ a (hresult a ha)

/-- What holds of each result holds of the result of a run, whatever the store answers. -/
theorem ensures (client : Client σ) (hp : KeepsTo φ Q p) :
    Ensures client (fun _ => True) p Q fun _ => True := by
  intro w _
  have hresult : ∀ a, (p.run.run client w).1 = .ok a → Q a := Dialogue.KeepsTo.result hp client w
  refine ⟨trivial, ?_⟩
  cases hend : (p.run.run client w).1 with
  | ok a => exact hresult a hend
  | error fault => trivial

end KeepsTo

end Run

/-! ## Faults -/

/-- If it fails, then with a fault that satisfies `E`. -/
def FailsWith (E : Fault → Prop) (e : Except Fault α) : Prop :=
  ∀ fault, e = .error fault → E fault

namespace FailsWith

variable {E : Fault → Prop} {e : Except Fault α} {f : α → Except Fault β}

theorem ok (a : α) : FailsWith E (.ok a) :=
  nofun

theorem of_eq_ok {a : α} (h : e = .ok a) : FailsWith E e :=
  h ▸ ok a

theorem error {fault : Fault} (h : E fault) : FailsWith E (.error fault : Except Fault α) :=
  fun _ heq => Except.error.inj heq ▸ h

theorem bind (he : FailsWith E e) (hf : ∀ a, FailsWith E (f a)) : FailsWith E (e >>= f) := by
  cases e with
  | ok a => exact hf a
  | error fault => exact error (he fault rfl)

theorem mapError {ε : Type} {f : ε → Fault} (e : Except ε α) (hf : ∀ reason, E (f reason)) :
    FailsWith E (e.mapError f) := by
  cases e with
  | ok a => exact ok a
  | error reason => exact error (hf reason)

end FailsWith

namespace Run

/-- Every request that the dialogue may send satisfies `φ`, and every fault with which it may end satisfies
`E`. -/
def StaysIn (φ : Request → Prop) (E : Fault → Prop) (p : Run α) : Prop :=
  p.run.KeepsTo φ (FailsWith E)

namespace StaysIn

variable {E : Fault → Prop} {p : Run α} {f : α → Run β} {e : Except Fault α}

theorem pure (a : α) : StaysIn φ E (Pure.pure a) :=
  FailsWith.ok a

theorem throw {fault : Fault} (h : E fault) : StaysIn φ E (MonadExcept.throw fault : Run α) :=
  FailsWith.error h

theorem bind (hp : StaysIn φ E p) (hf : ∀ a, StaysIn φ E (f a)) : StaysIn φ E (p >>= f) :=
  Dialogue.KeepsTo.bind hp fun result hresult => by
    cases result with
    | ok a => exact hf a
    | error fault => exact throw (hresult fault rfl)

theorem ofExcept (h : FailsWith E e) : StaysIn φ E (Run.ofExcept e) :=
  h

theorem ofExcept_bind (h : FailsWith E e) (hf : ∀ a, StaysIn φ E (f a)) :
    StaysIn φ E (Run.ofExcept e >>= f) :=
  (ofExcept h).bind hf

/-- What cannot fail ends with no fault at all. -/
theorem ofDialogue {p : Dialogue α} (hp : p.Asks φ) : StaysIn φ E (Run.ofDialogue p) :=
  (Dialogue.KeepsTo.of_asks (Q := fun _ => True) hp fun _ => trivial).bind fun a _ => FailsWith.ok a

theorem count (c : Counter) (n : UInt64) : StaysIn φ E (Run.count c n) :=
  FailsWith.ok ()

theorem wait (ms : Nat) : StaysIn φ E (Run.ofDialogue (Dialogue.wait ms)) :=
  FailsWith.ok ()

theorem mapM {f : α → Run β} : ∀ {xs : List α}, (∀ x ∈ xs, StaysIn φ E (f x)) →
    StaysIn φ E (xs.mapM f)
  | [], _ => pure []
  | x :: xs, h => by
    rw [List.mapM_cons]
    exact (h x List.mem_cons_self).bind fun y =>
      (mapM fun z hz => h z (List.mem_cons_of_mem x hz)).bind fun ys => pure _

/-- A request ends with its answer or with a fault of the store. -/
theorem request {r : Request} (retry : RetryConfig) (hr : φ r) (hE : ∀ fault, E (.store fault)) :
    StaysIn φ E (retry.request r) := by
  have hcounted : StaysIn φ E (Run.ofDialogue (Dialogue.sendCounted r)) := by
    refine ofDialogue ?_
    unfold Dialogue.sendCounted
    split <;> exact ⟨hr, fun _ => trivial⟩
  have hsend : ∀ left repetitions, StaysIn φ E (retry.sendAfter r repetitions left) := by
    intro left
    induction left with
    | zero =>
      intro repetitions
      rw [RetryConfig.sendAfter]
      refine hcounted.bind fun answer => ?_
      cases answer with
      | ok answer => exact pure _
      | error fault => exact throw (hE fault)
    | succ left ih =>
      intro repetitions
      rw [RetryConfig.sendAfter]
      refine hcounted.bind fun answer => ?_
      cases answer with
      | ok answer => exact pure _
      | error fault =>
        dsimp only
        split
        · exact (count _ _).bind fun _ => (wait _).bind fun _ => ih _
        · exact throw (hE fault)
  exact hsend _ 0

theorem asks (hp : StaysIn φ E p) : Asks φ p :=
  Dialogue.KeepsTo.asks hp

end StaysIn

end Run

end KeyedQuery
