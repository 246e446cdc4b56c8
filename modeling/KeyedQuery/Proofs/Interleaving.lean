import KeyedQuery.Proofs.Dialogue

/-!
# Dialogues next to each other

Two dialogues that use one store take turns, step by step and in any order (`Dialogue.interleave`).
What one of them can rely on is an invariant of the store and of how far both have come:
`Dialogue.Meets` says that a dialogue keeps it, however far the other one is, and ends as stated. Two
dialogues that meet their ends with one invariant do so in all turns (`Dialogue.Meets.interleave`).

How far a dialogue has come is not read off it but part of the invariant, as a value of any type, so
that a proof chooses what it keeps track of.
-/

namespace KeyedQuery

variable {α β σ X Y : Type} {client : Client σ} {I : X → Y → σ → Prop} {x : X} {y : Y}

/-- Which of two dialogues goes on. -/
inductive Turn where
  | first | second

namespace Dialogue

/-- Do the first thing that is left of a dialogue. -/
def step (client : Client σ) : Dialogue α → World σ → Dialogue α × World σ
  | .done a, w => (.done a, w)
  | .ask r next, w =>
    let (answer, w) := w.receive client r
    (next answer, w)
  | .sleep ms next, w => (next, w.sleep ms)
  | .tally c n next, w => (next, w.count c n)

/-- Run two dialogues in the given turns. Behind the last turn the first dialogue runs to its end, and
then the second one. -/
def interleave (client : Client σ) :
    List Turn → Dialogue α → Dialogue β → World σ → (α × β) × World σ
  | [], p, q, w =>
    let (a, w) := p.run client w
    let (b, w) := q.run client w
    ((a, b), w)
  | .first :: turns, p, q, w =>
    let (p, w) := p.step client w
    interleave client turns p q w
  | .second :: turns, p, q, w =>
    let (q, w) := q.step client w
    interleave client turns p q w

/-- From where it has come to, the dialogue keeps the invariant with every request, however far another
one has come, and ends as stated. -/
def Meets (client : Client σ) (I : X → Y → σ → Prop) (Q : X → α → Prop) : Dialogue α → X → Prop
  | .done a, x => Q x a
  | .ask r next, x => ∀ y s, I x y s →
      ∃ x', I x' y (client r s).2 ∧ (next (client r s).1).Meets client I Q x'
  | .sleep _ next, x => next.Meets client I Q x
  | .tally _ _ next, x => next.Meets client I Q x

namespace Meets

variable {p : Dialogue α} {q : Dialogue β} {Q : X → α → Prop} {R : X → β → Prop} {S : Y → β → Prop}
  {w : World σ}

theorem bind {f : α → Dialogue β} (hp : p.Meets client I Q x)
    (hf : ∀ x a, Q x a → (f a).Meets client I R x) : (p >>= f).Meets client I R x := by
  induction p generalizing x with
  | done a => exact hf x a hp
  | ask r next ih =>
    intro y s hI
    obtain ⟨x', hI', hnext⟩ := hp y s hI
    exact ⟨x', hI', ih _ hnext⟩
  | sleep ms next ih => exact ih hp
  | tally c n next ih => exact ih hp

/-- One step keeps the invariant, and what is left still meets its end. -/
theorem step (hp : p.Meets client I Q x) (hI : I x y w.store) :
    ∃ x', I x' y (p.step client w).2.store ∧ (p.step client w).1.Meets client I Q x' := by
  cases p with
  | done a => exact ⟨x, hI, hp⟩
  | ask r next => exact hp y w.store hI
  | sleep ms next => exact ⟨x, hI, hp⟩
  | tally c n next => exact ⟨x, hI, hp⟩

theorem run (hp : p.Meets client I Q x) (hI : I x y w.store) :
    ∃ x', I x' y (p.run client w).2.store ∧ Q x' (p.run client w).1 := by
  induction p generalizing x w with
  | done a => exact ⟨x, hI, hp⟩
  | ask r next ih =>
    obtain ⟨x', hI', hnext⟩ := hp y w.store hI
    exact ih _ hnext hI'
  | sleep ms next ih => exact ih hp hI
  | tally c n next ih => exact ih hp hI

/-- Two dialogues that keep one invariant meet their ends in all turns. -/
theorem interleave (turns : List Turn) (hp : p.Meets client I Q x)
    (hq : q.Meets client (fun y x => I x y) S y) (hI : I x y w.store) :
    ∃ x' y', I x' y' (Dialogue.interleave client turns p q w).2.store ∧
      Q x' (Dialogue.interleave client turns p q w).1.1 ∧
      S y' (Dialogue.interleave client turns p q w).1.2 := by
  induction turns generalizing p q x y w with
  | nil =>
    obtain ⟨x', hI, hQ⟩ := hp.run hI
    obtain ⟨y', hI, hS⟩ := hq.run hI
    exact ⟨x', y', hI, hQ, hS⟩
  | cons turn turns ih =>
    cases turn with
    | first =>
      obtain ⟨x', hI, hp⟩ := hp.step hI
      exact ih hp hq hI
    | second =>
      obtain ⟨y', hI, hq⟩ := hq.step hI
      exact ih hp hq hI

end Meets

end Dialogue

namespace Run

variable {p : Run α} {Q Q' : X → α → Prop} {R : X → β → Prop}

/-- The dialogue keeps the invariant with every request, and ends with a result as stated. -/
def Meets (client : Client σ) (I : X → Y → σ → Prop) (p : Run α) (Q : X → α → Prop) (x : X) : Prop :=
  p.run.Meets client I (fun x result => ∃ a, result = .ok a ∧ Q x a) x

namespace Meets

theorem pure {a : α} (h : Q x a) : Meets client I (Pure.pure a) Q x :=
  ⟨a, rfl, h⟩

theorem bind {f : α → Run β} (hp : Meets client I p Q x)
    (hf : ∀ x a, Q x a → Meets client I (f a) R x) : Meets client I (p >>= f) R x := by
  refine Dialogue.Meets.bind (f := ExceptT.bindCont f) hp fun x result hresult => ?_
  obtain ⟨a, rfl, ha⟩ := hresult
  exact hf x a ha

theorem ofExcept_bind {e : Except Fault α} {f : α → Run β} {a : α} (he : e = .ok a)
    (hf : Meets client I (f a) R x) : Meets client I (Run.ofExcept e >>= f) R x :=
  he ▸ hf

/-- An answer as stated, or a transient fault, after which one repetition less is left. -/
def Bearable {γ : Type} (B : Nat → X → Prop) (A : X → γ → Prop) (n : Nat) (x : X) :
    Except StoreFault γ → Prop
  | .ok answer => A x answer
  | .error fault => fault.isTransient = true ∧ ∃ m, n = m + 1 ∧ B m x

/-- A request is answered in the end if its repetitions last. From where `B n x` holds, `n` of them
do. -/
theorem request (retry : RetryConfig) {r : Request} {B : Nat → X → Prop} {A : X → r.Answer → Prop}
    (h : ∀ n x, B n x → ∀ y s, I x y s →
      ∃ x', I x' y (client r s).2 ∧ Bearable B A n x' (client r s).1)
    (hB : B retry.repetitions x) : Meets client I (retry.request r) A x := by
  have hcounted : ∀ n x, B n x →
      Meets client I (Run.ofDialogue (Dialogue.sendCounted r)) (Bearable B A n) x := by
    intro n x hB
    have hsend : Meets client I (Run.ofDialogue (Dialogue.send r)) (Bearable B A n) x :=
      fun y s hI => by
        obtain ⟨x', hI', hanswer⟩ := h n x hB y s hI
        exact ⟨x', hI', _, rfl, hanswer⟩
    unfold Dialogue.sendCounted
    split <;> exact hsend
  have hsend : ∀ left repetitions x, B left x →
      Meets client I (retry.sendAfter r repetitions left) A x := by
    intro left
    induction left with
    | zero =>
      intro repetitions x hB
      rw [RetryConfig.sendAfter]
      refine (hcounted 0 x hB).bind fun x' answer hanswer => ?_
      cases answer with
      | ok answer => exact pure hanswer
      | error fault =>
        obtain ⟨-, m, hm, -⟩ := hanswer
        cases hm
    | succ left ih =>
      intro repetitions x hB
      rw [RetryConfig.sendAfter]
      refine (hcounted (left + 1) x hB).bind fun x' answer hanswer => ?_
      cases answer with
      | ok answer => exact pure hanswer
      | error fault =>
        obtain ⟨htransient, m, hm, hB'⟩ := hanswer
        obtain rfl := Nat.succ.inj hm
        dsimp only
        rw [if_pos htransient]
        exact ih (repetitions + 1) x' hB'
  exact hsend _ 0 x hB

end Meets

end Run

end KeyedQuery
