import KeyedQuery.Fetch.Retry
import Mathlib.Data.List.Basic

/-!
# What dialogues ensure

`Run.Ensures client I p Q E` says of a dialogue, run alone against a store with the property `I`,
that the store keeps the property and that the dialogue ends with a result that satisfies `Q` or
with a fault that satisfies `E`. The rules follow the ways in which dialogues are put together;
`Run.Ensures.request` is the one for requests, which are repeated after transient faults.
-/

namespace KeyedQuery

variable {α β σ : Type} {client : Client σ} {I : σ → Prop}

/-- A result that was computed in two parts comes from a result of the first. -/
theorem exists_of_bind_eq_ok {ε : Type} {e : Except ε α} {f : α → Except ε β} {b : β}
    (h : e >>= f = .ok b) : ∃ a, e = .ok a ∧ f a = .ok b := by
  cases e with
  | error fault => cases h
  | ok a => exact ⟨a, rfl, h⟩

theorem exists_of_map_eq_ok {ε : Type} {e : Except ε α} {f : α → β} {b : β}
    (h : e.map f = .ok b) : ∃ a, e = .ok a ∧ f a = b := by
  cases e with
  | error fault => cases h
  | ok a => exact ⟨a, rfl, Except.ok.inj h⟩

theorem of_mapError_eq_ok {ε ε' : Type} {e : Except ε α} {f : ε → ε'} {a : α}
    (h : e.mapError f = .ok a) : e = .ok a := by
  cases e with
  | error fault => cases h
  | ok b => exact congrArg Except.ok (Except.ok.inj h)

/-- Results that were computed one by one come from the elements one by one. -/
theorem forall₂_of_mapM_eq_ok {ε : Type} {f : α → Except ε β} : ∀ {xs : List α} {ys : List β},
    xs.mapM f = .ok ys → List.Forall₂ (fun x y => f x = .ok y) xs ys
  | [], ys, h => by
    obtain rfl := Except.ok.inj h
    exact .nil
  | x :: xs, ys, h => by
    rw [List.mapM_cons] at h
    obtain ⟨y, hy, h⟩ := exists_of_bind_eq_ok h
    obtain ⟨rest, hrest, h⟩ := exists_of_bind_eq_ok h
    obtain rfl := Except.ok.inj h
    exact .cons hy (forall₂_of_mapM_eq_ok hrest)

theorem exists_of_mapM_eq_ok {ε : Type} {f : α → Except ε β} : ∀ {xs : List α} {ys : List β},
    xs.mapM f = .ok ys → ∀ x ∈ xs, ∃ y, f x = .ok y
  | [], _, _, _, hx => by cases hx
  | x :: xs, ys, h, z, hz => by
    rw [List.mapM_cons] at h
    obtain ⟨y, hy, h⟩ := exists_of_bind_eq_ok h
    obtain ⟨rest, hrest, -⟩ := exists_of_bind_eq_ok h
    rcases List.mem_cons.mp hz with rfl | hz
    · exact ⟨y, hy⟩
    · exact exists_of_mapM_eq_ok hrest z hz

theorem exists_of_mem_of_mapM_eq_ok {ε : Type} {f : α → Except ε β} : ∀ {xs : List α} {ys : List β},
    xs.mapM f = .ok ys → ∀ y ∈ ys, ∃ x ∈ xs, f x = .ok y
  | [], _, h, y, hy => by
    obtain rfl := Except.ok.inj h
    cases hy
  | x :: xs, ys, h, z, hz => by
    rw [List.mapM_cons] at h
    obtain ⟨y, hy, h⟩ := exists_of_bind_eq_ok h
    obtain ⟨rest, hrest, h⟩ := exists_of_bind_eq_ok h
    obtain rfl := Except.ok.inj h
    rcases List.mem_cons.mp hz with rfl | hz
    · exact ⟨x, List.mem_cons_self, hy⟩
    · obtain ⟨x', hx', hfx⟩ := exists_of_mem_of_mapM_eq_ok hrest z hz
      exact ⟨x', List.mem_cons_of_mem x hx', hfx⟩

/-- What is read off results that were computed one by one is read off the elements. -/
theorem map_eq_of_mapM_eq_ok {γ ε : Type} {f : α → Except ε β} {g : β → γ} {h : α → γ}
    (hfg : ∀ x y, f x = .ok y → g y = h x) {xs : List α} {ys : List β} (hys : xs.mapM f = .ok ys) :
    ys.map g = xs.map h := by
  have hall := forall₂_of_mapM_eq_ok hys
  clear hys
  induction hall with
  | nil => rfl
  | cons hxy _ ih => rw [List.map_cons, List.map_cons, hfg _ _ hxy, ih]

theorem Dialogue.run_bind (p : Dialogue α) (f : α → Dialogue β) (w : World σ) :
    (p >>= f).run client w = (f (p.run client w).1).run client (p.run client w).2 := by
  induction p generalizing w with
  | done a => rfl
  | ask r next ih => exact ih _ _
  | sleep ms next ih => exact ih _
  | tally c n next ih => exact ih _

theorem Dialogue.run_map (f : α → β) (p : Dialogue α) (w : World σ) :
    (f <$> p).run client w = (f (p.run client w).1, (p.run client w).2) :=
  Dialogue.run_bind p (fun a => .done (f a)) w

/-- A dialogue in two parts goes on with the result of the first, or ends with its fault. -/
theorem Run.run_bind (p : Run α) (f : α → Run β) (w : World σ) : (p >>= f).run.run client w =
    match (p.run.run client w).1 with
    | .ok a => (f a).run.run client (p.run.run client w).2
    | .error fault => (.error fault, (p.run.run client w).2) := by
  have hrun : (p >>= f).run.run client w =
      (ExceptT.bindCont f (p.run.run client w).1).run client (p.run.run client w).2 :=
    Dialogue.run_bind p.run _ w
  rw [hrun]
  cases (p.run.run client w).1 <;> rfl

theorem Run.run_map (f : α → β) (p : Run α) (w : World σ) :
    (f <$> p).run.run client w = ((p.run.run client w).1.map f, (p.run.run client w).2) := by
  rw [← bind_pure_comp, Run.run_bind]
  cases (p.run.run client w).1 <;> rfl

/-- A dialogue that succeeds in two parts succeeds in both of them, one after the other. -/
theorem Run.exists_of_run_bind_eq {p : Run α} {f : α → Run β} {w w' : World σ} {b : β}
    (h : (p >>= f).run.run client w = (.ok b, w')) : ∃ a middle,
      p.run.run client w = (.ok a, middle) ∧ (f a).run.run client middle = (.ok b, w') := by
  rw [Run.run_bind] at h
  cases hp : (p.run.run client w).1 with
  | error fault =>
    rw [hp] at h
    cases h
  | ok a =>
    rw [hp] at h
    exact ⟨a, _, Prod.ext hp rfl, h⟩

theorem Run.exists_of_run_ofExcept_bind_eq {e : Except Fault α} {f : α → Run β} {w w' : World σ}
    {b : β} (h : (Run.ofExcept e >>= f).run.run client w = (.ok b, w')) :
    ∃ a, e = .ok a ∧ (f a).run.run client w = (.ok b, w') := by
  cases e with
  | error fault => cases h
  | ok a => exact ⟨a, rfl, h⟩

theorem Run.exists_of_run_bind_eq_ok {p : Run α} {f : α → Run β} {w : World σ} {b : β}
    (h : ((p >>= f).run.run client w).1 = .ok b) : ∃ a, (p.run.run client w).1 = .ok a ∧
      ((f a).run.run client (p.run.run client w).2).1 = .ok b := by
  obtain ⟨a, middle, hp, hf⟩ := Run.exists_of_run_bind_eq (Prod.ext h rfl)
  exact ⟨a, by rw [hp], by rw [hp, hf]⟩

theorem Run.exists_of_run_ofExcept_bind_eq_ok {e : Except Fault α} {f : α → Run β} {w : World σ}
    {b : β} (h : ((Run.ofExcept e >>= f).run.run client w).1 = .ok b) :
    ∃ a, e = .ok a ∧ ((f a).run.run client w).1 = .ok b := by
  obtain ⟨a, he, hf⟩ := Run.exists_of_run_ofExcept_bind_eq (Prod.ext h rfl)
  exact ⟨a, he, by rw [hf]⟩

/-- A second part that sends nothing makes something of the result of the first. -/
theorem Run.run_bind_eq_map {p : Run α} {f : α → Run β} {g : α → β}
    (h : ∀ a (w : World σ), ((f a).run.run client w).1 = .ok (g a)) (w : World σ) :
    ((p >>= f).run.run client w).1 = (p.run.run client w).1.map g := by
  rw [Run.run_bind]
  cases (p.run.run client w).1 with
  | ok a => exact h a _
  | error fault => rfl

/-- A request that is sent is answered by the store. A transient fault is followed by a repetition as
long as some are left. -/
theorem RetryConfig.run_sendAfter (retry : RetryConfig) (client : Client σ) (r : Request)
    (repetitions left : Nat)
    (w : World σ) : ∃ world next : World σ, world.store = (client r w.store).2 ∧
      next.store = (client r w.store).2 ∧
      (retry.sendAfter r repetitions left).run.run client w =
        match (client r w.store).1, left with
        | .ok answer, _ => (.ok answer, world)
        | .error fault, 0 => (.error (.store fault), world)
        | .error fault, left + 1 =>
          if fault.isTransient then (retry.sendAfter r (repetitions + 1) left).run.run client next
          else (.error (.store fault), world) := by
  obtain ⟨world, hstore, hrun⟩ : ∃ world : World σ, world.store = (client r w.store).2 ∧
      (Run.ofDialogue (Dialogue.sendCounted r)).run.run client w =
        (.ok (client r w.store).1, world) := by
    unfold Dialogue.sendCounted
    split <;> exact ⟨_, rfl, rfl⟩
  refine ⟨world, (world.count .transientRetries 1).sleep (retry.delay repetitions), hstore, hstore, ?_⟩
  cases left with
  | zero =>
    rw [sendAfter, Run.run_bind, hrun]
    cases (client r w.store).1 <;> rfl
  | succ left =>
    rw [sendAfter, Run.run_bind, hrun]
    cases (client r w.store).1 with
    | ok answer => rfl
    | error fault =>
      dsimp only
      split <;> rfl

/-- The store answers a request with what satisfies the property, or with a tolerated fault. -/
def Client.Serves (client : Client σ) (I : σ → Prop) (r : Request) (A : r.Answer → Prop)
    (E : Fault → Prop) : Prop :=
  ∀ s, I s → I (client r s).2 ∧
    match (client r s).1 with
    | .ok answer => A answer
    | .error fault => E (.store fault)

namespace Run

variable {P Q : α → Prop} {R : β → Prop} {E F : Fault → Prop} {p : Run α}

/-- Run against a store with the property, the dialogue keeps the property and ends as stated. -/
def Ensures (client : Client σ) (I : σ → Prop) (p : Run α) (Q : α → Prop) (E : Fault → Prop) :
    Prop :=
  ∀ w : World σ, I w.store → I (p.run.run client w).2.store ∧
    match (p.run.run client w).1 with
    | .ok a => Q a
    | .error fault => E fault

namespace Ensures

theorem pure {a : α} (h : Q a) : Ensures client I (Pure.pure a) Q E :=
  fun _ hw => ⟨hw, h⟩

theorem throw {fault : Fault} (h : E fault) : Ensures client I (MonadExcept.throw fault) Q E :=
  fun _ hw => ⟨hw, h⟩

theorem bind {f : α → Run β} (hp : Ensures client I p Q E)
    (hf : ∀ a, Q a → Ensures client I (f a) R E) : Ensures client I (p >>= f) R E := by
  intro w hw
  obtain ⟨hstore, hresult⟩ := hp w hw
  rw [Run.run_bind]
  cases hend : (p.run.run client w).1 with
  | error fault =>
    rw [hend] at hresult
    exact ⟨hstore, hresult⟩
  | ok a =>
    rw [hend] at hresult
    exact hf a hresult _ hstore

/-- How a dialogue goes on matters only for the results that its first part may have. -/
theorem run_bind_congr {f g : α → Run β} (hp : Ensures client I p Q E) (hfg : ∀ a, Q a → f a = g a)
    {w : World σ} (hw : I w.store) : (p >>= f).run.run client w = (p >>= g).run.run client w := by
  have hresult := (hp w hw).2
  rw [Run.run_bind, Run.run_bind]
  cases hend : (p.run.run client w).1 with
  | error fault => rfl
  | ok a =>
    rw [hend] at hresult
    simp only [hfg a hresult]

theorem imp (hp : Ensures client I p P E) (hQ : ∀ a, P a → Q a) (hF : ∀ fault, E fault → F fault) :
    Ensures client I p Q F := by
  intro w hw
  obtain ⟨hstore, hresult⟩ := hp w hw
  refine ⟨hstore, ?_⟩
  cases hend : (p.run.run client w).1 with
  | ok a =>
    rw [hend] at hresult
    exact hQ a hresult
  | error fault =>
    rw [hend] at hresult
    exact hF fault hresult

theorem ofExcept {e : Except Fault α} (hok : ∀ a, e = .ok a → Q a)
    (herror : ∀ fault, e = .error fault → E fault) : Ensures client I (Run.ofExcept e) Q E := by
  intro w hw
  refine ⟨hw, ?_⟩
  cases e with
  | ok a => exact hok a rfl
  | error fault => exact herror fault rfl

theorem ofExcept_bind {e : Except Fault α} {f : α → Run β}
    (hok : ∀ a, e = .ok a → Ensures client I (f a) R E) (herror : ∀ fault, e = .error fault → E fault) :
    Ensures client I (Run.ofExcept e >>= f) R E :=
  (ofExcept (fun _ ha => ha) herror).bind hok

theorem count {c : Counter} {n : UInt64} : Ensures client I (Run.count c n) (fun _ => True) E :=
  fun _ hw => ⟨hw, trivial⟩

theorem wait {ms : Nat} :
    Ensures client I (Run.ofDialogue (Dialogue.wait ms)) (fun _ => True) E :=
  fun _ hw => ⟨hw, trivial⟩

theorem mapM {f : α → Run β} {S : α → β → Prop} : ∀ {xs : List α},
    (∀ x ∈ xs, Ensures client I (f x) (S x) E) →
      Ensures client I (xs.mapM f) (fun ys => List.Forall₂ S xs ys) E
  | [], _ => pure .nil
  | x :: xs, h => by
    rw [List.mapM_cons]
    refine (h x List.mem_cons_self).bind fun y hy => ?_
    exact (mapM fun z hz => h z (List.mem_cons_of_mem x hz)).bind fun ys hys => pure (.cons hy hys)

/-- Counting a request changes nothing in its answer. -/
theorem sendCounted {r : Request} {A : r.Answer → Prop} (h : client.Serves I r A E) :
    Ensures client I (Run.ofDialogue (Dialogue.sendCounted r))
      (fun answer => match answer with
        | .ok answer => A answer
        | .error fault => E (.store fault)) E := by
  intro w hw
  unfold Dialogue.sendCounted
  split <;> exact h w.store hw

/-- A request that is repeated after transient faults ends with an answer of the store or with one
of its faults. -/
theorem request {r : Request} {A : r.Answer → Prop} (retry : RetryConfig)
    (h : client.Serves I r A E) : Ensures client I (retry.request r) A E := by
  have hsend : ∀ left repetitions, Ensures client I (retry.sendAfter r repetitions left) A E := by
    intro left
    induction left with
    | zero =>
      intro repetitions
      rw [RetryConfig.sendAfter]
      refine (sendCounted h).bind fun answer hanswer => ?_
      cases answer with
      | ok answer => exact pure hanswer
      | error fault => exact throw hanswer
    | succ left ih =>
      intro repetitions
      rw [RetryConfig.sendAfter]
      refine (sendCounted h).bind fun answer hanswer => ?_
      cases answer with
      | ok answer => exact pure hanswer
      | error fault =>
        dsimp only
        split
        · exact count.bind fun _ _ => wait.bind fun _ _ => ih _
        · exact throw hanswer
  exact hsend _ 0

end Ensures

end Run

end KeyedQuery
