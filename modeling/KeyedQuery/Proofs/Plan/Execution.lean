import KeyedQuery.Plan.Rows
import KeyedQuery.Proofs.Database.Reads
import KeyedQuery.Proofs.Plan.Traversal
import KeyedQuery.Proofs.Preconditions

/-!
# Plans can be carried out

Carrying a plan out reads off its conditions once more what its strategy was chosen for: the key that they fix,
or the membership to go through. For a plan of a query this succeeds (`Plan.isExecutable_of_ofQuery`), so
nothing that comes behind planning ends with a fault about a precondition (`Plan.IsExecutable.rows`,
`Plan.IsExecutable.countRows`).
-/

namespace KeyedQuery

variable {r : Resolver} {c : Config} {q : FindQuery} {p : Plan} {policy : FetchPolicy}

namespace Plan

/-- The conditions give the requests of the plan's strategy what they need. -/
def IsExecutable (p : Plan) : Prop :=
  match p.directives.baseStrategy with
  | .primaryKeyQuery | .secondaryIndexQuery _ => ∃ request, p.keyQuery = .ok request
  | .multiQuery index field => ∃ requests, p.valueQueries index field = .ok requests
  | .batchGet => ∃ values, p.partitionValues = .ok values
  | .scan => True

theorem keys_of_ofQuery (h : ofQuery r c q = .ok p) : r.primaryKey q.model = .ok p.keys := by
  obtain ⟨a, ha, rfl⟩ := exists_parts h
  exact ha.keys

/-- The strategy of a plan has what it needs. -/
theorem rests_of_ofQuery (h : ofQuery r c q = .ok p) : p.Rests r := by
  have hfollows := follows_of_ofQuery h
  have hkeys := hfollows.model ▸ keys_of_ofQuery h
  have hfound := hfollows.model ▸ hfollows.found
  refine ⟨hfound, hfollows.strategy_eq, ?_⟩
  cases hmatch : p.keyMatch with
  | some m =>
    rw [hfollows.strategy_eq m hmatch]
    have hserves := KeyMatch.serves_of_find (hmatch ▸ hfound)
    unfold KeyMatch.strategy
    split <;> exact ⟨m, rfl, hserves⟩
  | none =>
    obtain ⟨s, hs, hrests⟩ := Strategy.ofMemberships_rests p.conditions hkeys none
    have hstrategy := hfollows.strategy
    rw [Strategy.ofConditions, hfound, hmatch] at hstrategy
    obtain rfl : s = p.directives.baseStrategy := Except.ok.inj (hs.symm.trans hstrategy)
    exact hrests

/-- The requests of a plan can be written. -/
theorem isExecutable_of_ofQuery (h : ofQuery r c q = .ok p) : p.IsExecutable := by
  have hrests := rests_of_ofQuery h
  have hmarked := isMarked_of_normalizeAll (follows_of_ofQuery h).conditions
  have hstrategy := hrests.strategy
  have hkey : (∃ m, p.keyMatch = some m ∧ m.Serves r p.model p.conditions) →
      ∃ request, p.keyQuery = .ok request := by
    rintro ⟨m, hmatch, hserves⟩
    obtain ⟨_, _, _, _, hquery, -⟩ := keyQuery_eq hmatch hserves.1 hmarked
    exact ⟨_, hquery⟩
  unfold IsExecutable
  split <;> rename_i hbase <;> rw [hbase] at hstrategy
  · exact hkey hstrategy
  · exact hkey hstrategy
  · obtain ⟨m, hm⟩ := hstrategy.2
    exact ⟨_, by rw [valueQueries, hm]⟩
  · obtain ⟨m, hm⟩ := hstrategy.2
    exact ⟨_, by rw [partitionValues, hm]⟩
  · trivial

end Plan

/-! ## Running -/

open Run (IsPast StaysIn)

theorem ResolvedJoin.isPast_attach (hpolicy : policy.EndsPast) (j : ResolvedJoin)
    (strategy : Strategy) (rows : List Item) : IsPast (j.attach policy strategy rows) :=
  (StaysIn.composes _ _).attach ((StaysIn.composes _ _).fetch_join (policy.retry.isPast_batchGet _ _)
    (fun _ _ _ => hpolicy.collect _ _) fun _ _ => hpolicy.collect _ _) strategy

namespace Plan

namespace IsExecutable

theorem fetch (h : p.IsExecutable) (hpolicy : policy.EndsPast) (limit : Option Nat) :
    IsPast (p.fetch policy limit) := by
  unfold IsExecutable at h
  unfold Plan.fetch
  split <;> rename_i hbase <;> rw [hbase] at h
  · obtain ⟨request, hrequest⟩ := h
    rw [hrequest]
    exact hpolicy.collect _ _
  · obtain ⟨request, hrequest⟩ := h
    rw [hrequest]
    exact hpolicy.collect _ _
  · obtain ⟨requests, hrequests⟩ := h
    rw [hrequests]
    exact (StaysIn.composes _ _).collectInTurn (fun _ _ _ => hpolicy.collect _ _) []
  · obtain ⟨values, hvalues⟩ := h
    rw [hvalues]
    exact (policy.retry.isPast_batchGet _ _).bind fun _ => .pure _
  · exact hpolicy.collect _ _

theorem rows (h : p.IsExecutable) (hpolicy : policy.EndsPast) : IsPast (p.rows policy) :=
  (StaysIn.composes _ _).rows (h.fetch hpolicy _)
    fun j _ strategy rows => j.isPast_attach hpolicy strategy rows

theorem countRows (h : p.IsExecutable) (hpolicy : policy.EndsPast) :
    IsPast (p.countRows policy) := by
  have hcount : ∀ request, p.countRequest? = some request → ∃ q, request = .ok q := by
    intro request hrequest
    unfold IsExecutable at h
    unfold countRequest? at hrequest
    split at hrequest
    · cases hrequest
    · split at hrequest <;> rename_i hbase <;> rw [hbase] at h <;> cases hrequest
      · exact h
      · exact h
      · exact ⟨_, rfl⟩
  refine (StaysIn.composes _ _).countRows (fun e he => ?_) (h.fetch hpolicy none)
  obtain ⟨q, rfl⟩ := hcount e he
  exact hpolicy.count q

end IsExecutable

end Plan

end KeyedQuery
