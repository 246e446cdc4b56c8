import KeyedQuery.Fetch.Batch
import KeyedQuery.Fetch.Pages
import KeyedQuery.Proofs.Traffic.Events

/-!
# Books of requests

What a dialogue has done by its end depends on the answers that it gets. `Dialogue.Ends` says that it is as
stated for all of them, and `Run.KeepsBooks` is the same for dialogues that may fail, where a fault leaves the
books balanced. A request that is ready to be sent is answered in the end with all of its repetitions
counted (`Run.keepsBooks_request`). What `Run.Settles` starts and ends with balanced books and with nothing
left to follow on, and pages, counts and batches are so.
-/

namespace KeyedQuery

variable {α β : Type} {acts : List Act}

/-! ## Between requests -/

namespace Act

variable {r : Request} {answer : Except StoreFault r.Answer} {c : Counter}

theorem settled_nil : Settled [] where
  balanced c _ := by cases c <;> rfl
  apart _ := rfl

theorem Settled.ready (h : Settled acts) (r : Request) : Ready r acts := by
  rw [Ready, h.apart r]
  exact h.balanced

theorem Settled.count (h : Settled acts) (hc : c.isTraffic = false) (n : UInt64) :
    Settled (acts ++ [.count c n]) where
  balanced := h.balanced.count_other hc n
  apart := (exchanges_concat_count acts c n).symm ▸ h.apart

theorem Ready.wait (h : Ready r acts) (ms : Nat) : Ready r (acts ++ [.wait ms]) := by
  rw [Ready, exchanges_concat_wait]
  exact Balance.wait h ms

theorem Sent.balanced (h : Sent r answer acts) (haccepted : Exchange.accepted? ⟨r, answer⟩ = none) :
    Balanced acts := by
  have hbalance := h.balance
  rwa [haccepted] at hbalance

/-- A request that is one more behind an answer is counted before it is sent. -/
theorem Sent.again {next : Request} (h : Sent r answer acts)
    (haccepted : Exchange.accepted? ⟨r, answer⟩ = none)
    (hagain : Exchange.again? ⟨r, answer⟩ next = some c) : Ready next (acts ++ [.count c 1]) := by
  rw [Ready, exchanges_concat_count, h.last, Option.bind_some, hagain]
  exact Balance.count_ahead (h.balanced haccepted) c

theorem Sent.settled {a : r.Answer} (h : Sent r (.ok a) acts)
    (haccepted : Exchange.accepted? ⟨r, .ok a⟩ = none)
    (hleftover : Exchange.leftover? ⟨r, .ok a⟩ = none) : Settled acts where
  balanced := h.balanced haccepted
  apart next := by
    rw [h.last]
    exact Exchange.again?_ok hleftover next

/-- An answer that is an event is counted behind it. -/
theorem Sent.count {a : r.Answer} (h : Sent r (.ok a) acts)
    (haccepted : Exchange.accepted? ⟨r, .ok a⟩ = some c)
    (hleftover : Exchange.leftover? ⟨r, .ok a⟩ = none) : Settled (acts ++ [.count c 1]) where
  balanced := by
    have hbalance := h.balance
    rw [haccepted] at hbalance
    exact hbalance.count
  apart next := by
    rw [exchanges_concat_count, h.last]
    exact Exchange.again?_ok hleftover next

end Act

/-! ## Ends of dialogues -/

namespace Dialogue

/-- Behind the given acts, the dialogue ends with acts and a result as stated, whatever it is answered. -/
def Ends (Q : List Act → α → Prop) : Dialogue α → List Act → Prop
  | .done a, acts => Q acts a
  | .ask r next, acts => ∀ answer, (next answer).Ends Q (acts ++ [.exchange ⟨r, answer⟩])
  | .sleep ms next, acts => next.Ends Q (acts ++ [.wait ms])
  | .tally c n next, acts => next.Ends Q (acts ++ [.count c n])

theorem Ends.bind {p : Dialogue α} {f : α → Dialogue β} {Q : List Act → α → Prop}
    {R : List Act → β → Prop} (hp : p.Ends Q acts) (hf : ∀ acts a, Q acts a → (f a).Ends R acts) :
    (p >>= f).Ends R acts := by
  induction p generalizing acts with
  | done a => exact hf acts a hp
  | ask r next ih => exact fun answer => ih answer (hp answer)
  | sleep ms next ih => exact ih hp
  | tally c n next ih => exact ih hp

theorem Ends.imp {p : Dialogue α} {Q R : List Act → α → Prop} (hp : p.Ends Q acts)
    (h : ∀ acts a, Q acts a → R acts a) : p.Ends R acts := by
  rw [← bind_pure p]
  exact hp.bind h

/-- However the dialogue ends behind the given acts, the books are balanced. -/
def Balances (p : Dialogue α) (acts : List Act) : Prop :=
  p.Ends (fun acts _ => Act.Balanced acts) acts

theorem Balances.map {p : Dialogue α} (hp : p.Balances acts) (f : α → β) : (f <$> p).Balances acts :=
  Ends.bind (f := fun a => pure (f a)) hp fun _ _ hacts => hacts

end Dialogue

namespace Run

/-- Acts and a result as stated, or balanced books and a fault. -/
def Books (Q : List Act → α → Prop) (acts : List Act) : Except Fault α → Prop
  | .ok a => Q acts a
  | .error _ => Act.Balanced acts

/-- From acts as in `P` the dialogue comes to acts and a result as in `Q`; a fault leaves the books
balanced. -/
def KeepsBooks (P : List Act → Prop) (p : Run α) (Q : List Act → α → Prop) : Prop :=
  ∀ acts, P acts → p.run.Ends (Books Q) acts

/-- With balanced books and nothing left to follow on, the dialogue comes to such books again. -/
def Settles (p : Run α) : Prop :=
  KeepsBooks Act.Settled p fun acts _ => Act.Settled acts

namespace KeepsBooks

variable {P : List Act → Prop} {Q : List Act → α → Prop} {R : List Act → β → Prop} {p : Run α} {a : α}
  {fault : Fault}

theorem pure (h : ∀ acts, P acts → Q acts a) : KeepsBooks P (Pure.pure a) Q :=
  h

theorem throw (h : ∀ acts, P acts → Act.Balanced acts) : KeepsBooks P (throw fault) Q :=
  h

theorem bind {f : α → Run β} (hp : KeepsBooks P p Q)
    (hf : ∀ a, KeepsBooks (fun acts => Q acts a) (f a) R) : KeepsBooks P (p >>= f) R := by
  intro acts hacts
  refine Dialogue.Ends.bind (f := ExceptT.bindCont f) (hp acts hacts) fun acts result hresult => ?_
  cases result with
  | ok a => exact hf a acts hresult
  | error fault => exact hresult

theorem imp {P' : List Act → Prop} {Q' : List Act → α → Prop} (hp : KeepsBooks P p Q)
    (hP : ∀ acts, P' acts → P acts) (hQ : ∀ acts a, Q acts a → Q' acts a) : KeepsBooks P' p Q' := by
  intro acts hacts
  refine Dialogue.Ends.imp (hp acts (hP acts hacts)) fun acts result hresult => ?_
  cases result with
  | ok a => exact hQ acts a hresult
  | error fault => exact hresult

theorem count {c : Counter} {n : UInt64} {Q : List Act → Unit → Prop}
    (h : ∀ acts, P acts → Q (acts ++ [.count c n]) ()) : KeepsBooks P (Run.count c n) Q :=
  h

theorem wait {ms : Nat} {Q : List Act → Unit → Prop} (h : ∀ acts, P acts → Q (acts ++ [.wait ms]) ()) :
    KeepsBooks P (Run.ofDialogue (Dialogue.wait ms)) Q :=
  h

end KeepsBooks

namespace Settles

variable {p : Run α} {f : α → Run β}

theorem pure (a : α) : Settles (Pure.pure a : Run α) :=
  KeepsBooks.pure fun _ h => h

theorem throw (fault : Fault) : Settles (throw fault : Run α) :=
  KeepsBooks.throw fun _ h => h.balanced

theorem bind (hp : Settles p) (hf : ∀ a, Settles (f a)) : Settles (p >>= f) :=
  KeepsBooks.bind hp hf

theorem ofExcept (e : Except Fault α) : Settles (Run.ofExcept e) := by
  cases e with
  | ok a => exact pure a
  | error fault => exact throw fault

theorem ofExcept_bind {e : Except Fault α} (hf : ∀ a, Settles (f a)) : Settles (Run.ofExcept e >>= f) :=
  (ofExcept e).bind hf

theorem count {c : Counter} (hc : c.isTraffic = false) (n : UInt64) : Settles (Run.count c n) :=
  KeepsBooks.count fun _ h => h.count hc n

/-- What settles ends with balanced books, whether it succeeds or not. -/
theorem balances (hp : Settles p) (h : Act.Settled acts) : p.run.Balances acts :=
  Dialogue.Ends.imp (hp acts h) fun acts result hresult => by
    cases result with
    | ok a => exact hresult.balanced
    | error fault => exact hresult

theorem mapM {f : α → Run β} (h : ∀ x, Settles (f x)) : ∀ xs : List α, Settles (xs.mapM f)
  | [] => pure []
  | x :: xs => by
    rw [List.mapM_cons]
    exact (h x).bind fun y => (mapM h xs).bind fun ys => pure _

end Settles

/-! ## Requests -/

theorem keepsBooks_sendCounted (r : Request) :
    KeepsBooks (Act.Ready r) (Run.ofDialogue (Dialogue.sendCounted r)) fun acts answer =>
      Act.Sent r answer acts := by
  intro acts hacts
  have hsent := fun answer => hacts.sent answer
  unfold Act.sending at hsent
  unfold Dialogue.sendCounted
  cases hc : r.counter? with
  | none =>
    simp only [hc, Option.map_none, Option.toList_none, List.nil_append] at hsent
    exact hsent
  | some c =>
    simp only [hc, Option.map_some, Option.toList_some, ← List.append_assoc] at hsent
    exact hsent

end Run

namespace RetryConfig

open Run (KeepsBooks Settles)

theorem keepsBooks_sendAfter (retry : RetryConfig) (r : Request) : ∀ left repetitions,
    KeepsBooks (Act.Ready r) (retry.sendAfter r repetitions left) fun acts answer =>
      Act.Sent r (.ok answer) acts
  | 0, repetitions => by
    rw [sendAfter]
    refine (Run.keepsBooks_sendCounted r).bind fun answer => ?_
    cases answer with
    | ok answer => exact .pure fun _ h => h
    | error fault => exact .throw fun _ h => h.balanced (Exchange.accepted?_error fault)
  | left + 1, repetitions => by
    rw [sendAfter]
    refine (Run.keepsBooks_sendCounted r).bind fun answer => ?_
    cases answer with
    | ok answer => exact .pure fun _ h => h
    | error fault =>
      dsimp only
      split
      · rename_i htransient
        -- the repetition is counted before the wait and sent behind it
        have hagain : Exchange.again? ⟨r, .error fault⟩ r = some .transientRetries :=
          if_pos ⟨htransient, rfl⟩
        refine KeepsBooks.bind (Q := fun acts _ => Act.Ready r acts)
          (.count fun acts h => h.again (Exchange.accepted?_error fault) hagain) fun _ => ?_
        exact KeepsBooks.bind (Q := fun acts _ => Act.Ready r acts) (.wait fun acts h => h.wait _)
          fun _ => keepsBooks_sendAfter retry r left (repetitions + 1)
      · exact .throw fun _ h => h.balanced (Exchange.accepted?_error fault)

/-- A request is answered in the end, or it has failed with balanced books. -/
theorem keepsBooks_request (retry : RetryConfig) (r : Request) :
    KeepsBooks (Act.Ready r) (retry.request r) fun acts answer => Act.Sent r (.ok answer) acts :=
  retry.keepsBooks_sendAfter r _ 0

/-- The rounds of a batch go on as long as keys are left over. -/
theorem keepsBooks_batchAfter (retry : RetryConfig) (table : String) (left : Nat) : ∀ rounds keys,
    KeepsBooks (Act.Ready (.batchGet table keys)) (retry.batchAfter table rounds keys left) fun acts _ =>
      Act.Settled acts := by
  have haccepted : ∀ (keys : List Item) (answer : BatchAnswer),
      Exchange.accepted? ⟨.batchGet table keys, .ok answer⟩ = none := fun _ _ => rfl
  induction left with
  | zero =>
    intro rounds keys
    unfold batchAfter
    refine (retry.keepsBooks_request _).bind fun answer => ?_
    split
    · rename_i hdone
      exact .pure fun _ h => h.settled (haccepted keys answer) (if_pos hdone)
    · exact .throw fun _ h => h.balanced (haccepted keys answer)
  | succ left ih =>
    intro rounds keys
    unfold batchAfter
    refine (retry.keepsBooks_request _).bind fun answer => ?_
    split
    · rename_i hdone
      exact .pure fun _ h => h.settled (haccepted keys answer) (if_pos hdone)
    · rename_i hleft
      have hagain : Exchange.again? ⟨.batchGet table keys, .ok answer⟩
          (.batchGet table answer.unprocessed) = some .unprocessedRetries :=
        Exchange.again?_eq_some_iff.mpr (.inr ⟨rfl, if_neg hleft⟩)
      refine KeepsBooks.bind (Q := fun acts _ => Act.Ready (.batchGet table answer.unprocessed) acts)
        (.count fun _ h => h.again (haccepted keys answer) hagain) fun _ => ?_
      refine KeepsBooks.bind (Q := fun acts _ => Act.Ready (.batchGet table answer.unprocessed) acts)
        (.wait fun _ h => h.wait _) fun _ => ?_
      exact (ih _ _).bind fun _ => .pure fun _ h => h

theorem settles_batchGet (retry : RetryConfig) (table : String) (keys : List Item) :
    Settles (retry.batchGet table keys) :=
  (Settles.mapM (fun batch => (retry.keepsBooks_batchAfter table _ 0 batch).imp (fun _ h => h.ready _)
    fun _ _ h => h) _).bind fun _ => .pure _

end RetryConfig

/-! ## Pages -/

namespace FetchPolicy

open Run (Settles)

variable (policy : FetchPolicy)

theorem settles_page (p : PageRequest) : Settles (policy.page p) := by
  have haccepted : ∀ page, Exchange.accepted? ⟨.page p, .ok page⟩ = none := fun page => by
    cases hp : p.access <;> simp [Exchange.accepted?, Exchange.isAccepted, Request.kind, hp]
  exact (policy.retry.keepsBooks_request (.page p)).imp (fun _ h => h.ready _)
    fun _ page h => h.settled (haccepted page) rfl

theorem settles_goOn (limit : Option Nat) (items : List Item) (last : Option Item)
    {more : Item → Run (List Item)} (hmore : ∀ key, Settles (more key)) :
    Settles (goOn limit items last more) := by
  unfold goOn
  split
  · exact .pure _
  · cases last with
    | none => exact .pure _
    | some key => exact hmore key

theorem settles_collect (p : PageRequest) (limit : Option Nat) : Settles (policy.collect p limit) := by
  have hfrom : ∀ (further : Nat) (collected : List Item) (p : PageRequest),
      Settles (policy.collectFrom limit collected p further) := by
    intro further
    induction further with
    | zero =>
      intro collected p
      exact (policy.settles_page _).bind fun page => settles_goOn _ _ _ fun _ => .throw _
    | succ further ih =>
      intro collected p
      exact (policy.settles_page _).bind fun page => settles_goOn _ _ _ fun key => ih _ _
  unfold collect
  split
  · exact .pure _
  · exact hfrom _ _ _

theorem settles_count (p : PageRequest) : Settles (policy.count p) := by
  have hfrom : ∀ (further total : Nat) (p : PageRequest), Settles (policy.countFrom total p further) := by
    intro further
    induction further with
    | zero =>
      intro total p
      refine (policy.settles_page p).bind fun page => ?_
      cases page.last with
      | none => exact .pure _
      | some key => exact .throw _
    | succ further ih =>
      intro total p
      refine (policy.settles_page p).bind fun page => ?_
      cases page.last with
      | none => exact .pure _
      | some key => exact ih _ _
  exact hfrom _ _ _

end FetchPolicy

end KeyedQuery
