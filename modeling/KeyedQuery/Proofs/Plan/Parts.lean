import KeyedQuery.Plan.Basic
import KeyedQuery.Proofs.Dialogue

/-!
# Parts of a plan

Planning a query finds out where its model lies, checks its conditions, looks for the key that they fix
and for a strategy, and resolves its joins. `Plan.Parts` is what has been found out then, and
`Plan.Parts.plan` puts it together. `Plan.ofQuery_eq` splits planning into the two, so what is known of
a plan is read off its parts (`Plan.exists_parts`), and what a query has besides its model, its
conditions and its joins bears on the second one only.
-/

namespace KeyedQuery

namespace Plan

variable {r : Resolver} {c : Config} {q : FindQuery} {p : Plan}

/-! ## Joins -/

/-- What has been found out about a join of a model that is resolved. -/
structure Resolves (r : Resolver) (model : String) (edge : JoinEdge) (j : ResolvedJoin)
    (strategy : Strategy) : Prop where
  table : r.table edge.targetModel = .ok j.table
  keys : r.primaryKey edge.targetModel = .ok j.keys
  strategy : Strategy.ofField r edge.targetModel j.foreignField = .ok strategy
  localField : j.localField = r.fieldName model edge.localField
  label : j.label = edge.label.getD edge.targetModel
  cap : j.relation = .oneToOne → j.cap = 1

theorem resolves_of_resolveJoin {model : String} {edge : JoinEdge} {j : ResolvedJoin}
    {strategy : Strategy} (h : resolveJoin r c model edge = .ok (j, strategy)) :
    Resolves r model edge j strategy := by
  unfold resolveJoin at h
  by_cases hnames : edge.targetModel = "" ∨ edge.localField = "" ∨ edge.foreignField = ""
  · rw [if_pos hnames] at h
    cases h
  by_cases hlimit : edge.limit = some 0
  · rw [if_neg hnames, if_pos hlimit] at h
    cases h
  rw [if_neg hnames, if_neg hlimit] at h
  obtain ⟨table, htable, h⟩ := exists_of_bind_eq_ok h
  obtain ⟨keys, hkeys, h⟩ := exists_of_bind_eq_ok h
  obtain ⟨chosen, hchosen, h⟩ := exists_of_bind_eq_ok h
  obtain ⟨rfl, rfl⟩ := Prod.mk.inj (Except.ok.inj h)
  refine ⟨htable, hkeys, hchosen, rfl, rfl, fun hrelation => ?_⟩
  dsimp only at hrelation ⊢
  rw [hrelation]

/-! ## Plans -/

/-- What has been found out about a query when its plan is put together. -/
structure Parts where
  table : String
  keys : KeySchema
  conditions : List NormalizedCondition
  keyMatch : Option KeyMatch
  strategy : Strategy
  joins : List (ResolvedJoin × Strategy)

/-- The parts are those of a query. -/
structure Parts.AreOf (a : Parts) (r : Resolver) (c : Config) (q : FindQuery) : Prop where
  model : q.model ≠ ""
  table : r.table q.model = .ok a.table
  keys : r.primaryKey q.model = .ok a.keys
  conditions : normalizeAll r q.model q.conditions = .ok a.conditions
  keyMatch : KeyMatch.find r q.model a.conditions = .ok a.keyMatch
  strategy : Strategy.ofConditions r q.model a.conditions = .ok a.strategy
  joins : q.joins.mapM (resolveJoin r c q.model) = .ok a.joins

/-- The plan that is put together from parts. -/
def Parts.plan (a : Parts) (r : Resolver) (q : FindQuery) : Plan :=
  let sort := q.sort.map fun s => { s with field := r.fieldName q.model s.field }
  let clientFilter := needsClientFilter a.strategy a.conditions
  let serverSort := serverSort? sort a.keyMatch
  let clientSort := sort.isSome && serverSort.isNone
  { model := q.model, table := a.table, keys := a.keys, conditions := a.conditions, sort
    limit := q.limit, offset := q.offset.getD 0
    select := q.select.map (List.map (r.fieldName q.model))
    joins := a.joins.map Prod.fst, keyMatch := a.keyMatch
    directives :=
      { baseStrategy := a.strategy, joinStrategies := a.joins.map Prod.snd, clientFilter, clientSort,
        serverSort
        fetchLimit := if clientFilter || clientSort then none
          else q.limit.map fun l => addSizes l (q.offset.getD 0) } }

/-- Find out what the plan of a query is put together from. -/
def partsOf (r : Resolver) (c : Config) (q : FindQuery) : Except Fault Parts := do
  if q.model = "" then
    .error (.missingInput "Query has no model")
  let table ← r.table q.model
  let keys ← r.primaryKey q.model
  let conditions ← normalizeAll r q.model q.conditions
  let keyMatch ← KeyMatch.find r q.model conditions
  let strategy ← Strategy.ofConditions r q.model conditions
  let joins ← q.joins.mapM (resolveJoin r c q.model)
  .ok ⟨table, keys, conditions, keyMatch, strategy, joins⟩

/-- The strategy that goes with a key match is the one for the conditions, so it need not be told from
the match. -/
theorem ofQuery_eq (r : Resolver) (c : Config) (q : FindQuery) :
    ofQuery r c q = (partsOf r c q).map fun a => a.plan r q := by
  show _ = (fun a : Parts => a.plan r q) <$> partsOf r c q
  unfold ofQuery partsOf
  by_cases hmodel : q.model = ""
  · simp only [hmodel, if_true]
    rfl
  · simp only [hmodel, if_false, map_bind]
    refine bind_congr fun table => bind_congr fun keys => bind_congr fun conditions => ?_
    cases hfound : KeyMatch.find r q.model conditions with
    | error fault => rfl
    | ok keyMatch =>
      cases keyMatch with
      | none => rfl
      | some m =>
        have hstrategy : Strategy.ofConditions r q.model conditions = .ok m.strategy := by
          rw [Strategy.ofConditions, hfound]
          rfl
        dsimp only [bind, Except.bind]
        rw [hstrategy]
        rfl

theorem exists_parts (h : ofQuery r c q = .ok p) : ∃ a : Parts, a.AreOf r c q ∧ p = a.plan r q := by
  rw [ofQuery_eq] at h
  obtain ⟨a, ha, rfl⟩ := exists_of_map_eq_ok h
  refine ⟨a, ?_, rfl⟩
  unfold partsOf at ha
  by_cases hmodel : q.model = ""
  · rw [if_pos hmodel] at ha
    cases ha
  · rw [if_neg hmodel] at ha
    obtain ⟨table, htable, ha⟩ := exists_of_bind_eq_ok ha
    obtain ⟨keys, hkeys, ha⟩ := exists_of_bind_eq_ok ha
    obtain ⟨conditions, hconditions, ha⟩ := exists_of_bind_eq_ok ha
    obtain ⟨keyMatch, hkeyMatch, ha⟩ := exists_of_bind_eq_ok ha
    obtain ⟨strategy, hstrategy, ha⟩ := exists_of_bind_eq_ok ha
    obtain ⟨joins, hjoins, ha⟩ := exists_of_bind_eq_ok ha
    obtain rfl := Except.ok.inj ha
    exact ⟨hmodel, htable, hkeys, hconditions, hkeyMatch, hstrategy, hjoins⟩

theorem Parts.AreOf.ofQuery_eq {a : Parts} (h : a.AreOf r c q) : ofQuery r c q = .ok (a.plan r q) := by
  rw [Plan.ofQuery_eq, partsOf, if_neg h.model, h.table, h.keys, h.conditions]
  dsimp only [bind, Except.bind, pure, Except.pure]
  rw [h.keyMatch, h.strategy, h.joins]
  rfl

theorem Parts.AreOf.strategy_eq {a : Parts} (h : a.AreOf r c q) {m : KeyMatch}
    (hm : a.keyMatch = some m) : a.strategy = m.strategy := by
  have hstrategy := h.strategy
  rw [Strategy.ofConditions, h.keyMatch, hm] at hstrategy
  exact (Except.ok.inj hstrategy).symm

/-- In a query for a known model nothing is wrong before its conditions are. -/
theorem ofQuery_eq_error {table : String} {keys : KeySchema} (c : Config) (hname : q.model ≠ "")
    (htable : r.table q.model = .ok table) (hkeys : r.primaryKey q.model = .ok keys) {fault : Fault}
    (h : normalizeAll r q.model q.conditions = .error fault) : ofQuery r c q = .error fault := by
  rw [ofQuery_eq, partsOf, if_neg hname, htable, hkeys]
  dsimp only [bind, Except.bind, pure, Except.pure]
  rw [h]
  rfl

end Plan

end KeyedQuery
