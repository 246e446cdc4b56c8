import KeyedQuery.Proofs.Fetch.Conduct

/-!
# Preconditions

Before an operation sends anything, it has to know where its model lies, which operators its conditions name and
which key they fix. `Run.ChecksFirst` says of a dialogue that it ends with a fault about one of these only if it
has sent nothing, and `Run.IsPast` that it does not end with such a fault, whatever it is answered. What checks
first may be followed by whatever is past its preconditions (`Run.ChecksFirst.bind`), and to send requests,
to follow pages and to fetch keys is.
-/

namespace KeyedQuery

/-- The fault is about what an operation has to know before it sends anything. -/
def Fault.IsPrecondition : Fault → Prop
  | .missingTable _ | .missingPrimaryKey _ | .unsupportedOperator _ | .missingKeyCondition _ => True
  | _ => False

/-- The faults about preconditions are those of four codes. -/
theorem Fault.isPrecondition_iff_code {fault : Fault} : fault.IsPrecondition ↔ fault.code ∈
    ["DQ_MISSING_TABLE", "DQ_MISSING_PRIMARY_KEY", "DQ_UNSUPPORTED_OPERATOR",
      "DQ_MISSING_KEY_CONDITION"] := by
  cases fault <;> simp [IsPrecondition, code]

variable {α β : Type}

/-- If it fails, then with a fault that is not about a precondition. -/
abbrev FailsPast (e : Except Fault α) : Prop :=
  FailsWith (fun fault => ¬fault.IsPrecondition) e

namespace Run

/-- Whatever it is answered, the dialogue does not end with a fault about a precondition. -/
abbrev IsPast (p : Run α) : Prop :=
  StaysIn (fun _ => True) (fun fault => ¬fault.IsPrecondition) p

/-- Run against any store, the dialogue ends with a fault about a precondition only if the store has received
no request from it. -/
def ChecksFirst (p : Run α) : Prop :=
  ∀ (σ : Type) (client : Client σ) (w : World σ) (fault : Fault),
    (p.run.run client w).1 = .error fault → fault.IsPrecondition →
      (p.run.run client w).2.requests = w.requests

variable {p : Run α} {f : α → Run β} {e : Except Fault α}

namespace ChecksFirst

theorem of_isPast (h : IsPast p) : ChecksFirst p := fun _ client w fault hfault hprecondition =>
  absurd hprecondition (Dialogue.KeepsTo.result h client w fault hfault)

/-- A check sends nothing. -/
theorem ofExcept (e : Except Fault α) : ChecksFirst (Run.ofExcept e) :=
  fun _ _ _ _ _ _ => rfl

theorem ofExcept_bind (hf : ∀ a, e = .ok a → ChecksFirst (f a)) :
    ChecksFirst (Run.ofExcept e >>= f) := by
  cases e with
  | ok a => exact hf a rfl
  | error fault => exact fun _ _ _ _ _ _ => rfl

/-- What follows on a success has to be past its preconditions, since requests may have been sent by then. -/
theorem bind (hp : ChecksFirst p) (hf : ∀ {σ : Type} (client : Client σ) (w : World σ) (a : α),
    (p.run.run client w).1 = .ok a → IsPast (f a)) : ChecksFirst (p >>= f) := by
  intro σ client w fault hfault hprecondition
  rw [Run.run_bind] at hfault ⊢
  cases hend : (p.run.run client w).1 with
  | error first =>
    rw [hend] at hfault
    obtain rfl := Except.error.inj hfault
    exact hp σ client w first hend hprecondition
  | ok a =>
    rw [hend] at hfault
    exact absurd hprecondition (Dialogue.KeepsTo.result (hf client w a hend) client _ fault hfault)

end ChecksFirst

/-- What is past its preconditions behind a check fails for one of them exactly if the check does. -/
theorem run_ofExcept_bind_eq_error_iff {σ : Type} (client : Client σ) (w : World σ)
    (hf : ∀ a, e = .ok a → IsPast (f a)) {fault : Fault} (hfault : fault.IsPrecondition) :
    ((Run.ofExcept e >>= f).run.run client w).1 = .error fault ↔ e = .error fault := by
  cases e with
  | ok a =>
    exact iff_of_false (fun h => Dialogue.KeepsTo.result (hf a rfl) client w fault h hfault) nofun
  | error first =>
    show Except.error first = Except.error fault ↔ _
    rw [Except.error.injEq, Except.error.injEq]

end Run

/-! ## Fetching -/

open Run (IsPast)

theorem RetryConfig.isPast_request (retry : RetryConfig) (r : Request) : IsPast (retry.request r) :=
  .request retry trivial fun _ => id

/-- Keys that stay unprocessed are no precondition. -/
theorem RetryConfig.isPast_batchGet (retry : RetryConfig) (table : String) (keys : List Item) :
    IsPast (retry.batchGet table keys) :=
  retry.staysIn_batchGet (fun _ => trivial) (fun _ => id) (fun _ _ => id) keys

namespace FetchPolicy

/-- What a fetch that needs more pages ends with is no fault about a precondition. -/
def EndsPast (policy : FetchPolicy) : Prop :=
  ¬policy.exhausted.IsPrecondition

theorem endsPast_fetchPolicy (c : Config) (horizon : Nat) : (c.fetchPolicy horizon).EndsPast := by
  unfold EndsPast Config.fetchPolicy
  split <;> exact id

variable {policy : FetchPolicy}

theorem EndsPast.collect (h : policy.EndsPast) (q : PageRequest) (limit : Option Nat) :
    IsPast (policy.collect q limit) :=
  staysIn_collect q limit (fun _ _ _ => trivial) (fun _ => id) h

theorem EndsPast.count (h : policy.EndsPast) (q : PageRequest) : IsPast (policy.count q) :=
  staysIn_count q (fun _ => trivial) (fun _ => id) h

end FetchPolicy

end KeyedQuery
