import KeyedQuery.Plan.Requests
import KeyedQuery.Proofs.Plan.Parts
import Mathlib.Data.List.Basic

/-!
# What strategies rest on

A strategy is chosen because of conditions, and these are the ones that its requests use. The
positions of a key match are those of required equalities (`KeyMatch.fits_of_find`), and a strategy
for memberships has a membership to go through. `Plan.Rests` says so of a plan, and
`Plan.exists_ofQuery` that every plan of a query without joins does.
-/

namespace KeyedQuery

variable {r : Resolver} {model : String} {conditions : List NormalizedCondition}

namespace KeyMatch

/-- The positions of a match are those of required equalities. -/
structure Fits (m : KeyMatch) (conditions : List NormalizedCondition) : Prop where
  partition : ∃ c, conditions[m.partition]? = some c ∧ c.isKeyEquality = true
  sort : ∀ i, m.sort = some i → ∃ c, conditions[i]? = some c ∧ c.isKeyEquality = true

theorem of_findEquality {field : String} {i : Nat} (h : findEquality conditions field = some i) :
    ∃ c, conditions[i]? = some c ∧ c.isKeyEquality = true := by
  obtain ⟨hlt, hc, -⟩ := List.findIdx?_eq_some_iff_getElem.mp h
  exact ⟨conditions[i], List.getElem?_eq_getElem hlt, by simp at hc; exact hc.1⟩

theorem fits_ofPartition {index : Option String} {keys : KeySchema} {i : Nat}
    (h : ∃ c, conditions[i]? = some c ∧ c.isKeyEquality = true) :
    (ofPartition conditions index keys i).Fits conditions where
  partition := h
  sort j hj := by
    obtain ⟨field, -, hfind⟩ := Option.bind_eq_some_iff.mp hj
    exact of_findEquality hfind

/-- The match fits, and is of the table or of an index of the model. -/
def Serves (r : Resolver) (model : String) (conditions : List NormalizedCondition)
    (m : KeyMatch) : Prop :=
  m.Fits conditions ∧ ∀ index, m.index = some index → ∃ field, r.indexName model field = some index

theorem serves_ofIndex? {position : Nat} {c : NormalizedCondition} {m : KeyMatch}
    (hc : conditions[position]? = some c) (h : ofIndex? r model conditions position c = some m) :
    m.Serves r model conditions := by
  unfold ofIndex? at h
  split at h
  · rename_i hkey
    obtain ⟨index, hindex, rfl⟩ := Option.map_eq_some_iff.mp h
    refine ⟨fits_ofPartition ⟨c, hc, hkey⟩, fun name hname => ⟨c.field, ?_⟩⟩
    rw [← hname]
    exact hindex
  · cases h

theorem foldl_better_mem (ms : List KeyMatch) : ∀ {best : Option KeyMatch} {m : KeyMatch},
    ms.foldl better best = some m → best = some m ∨ m ∈ ms := by
  induction ms with
  | nil => exact fun h => .inl h
  | cons first rest ih =>
    intro best m h
    rcases ih h with hbest | hmem
    · unfold better at hbest
      split at hbest
      · split at hbest
        · exact .inr (Option.some.inj hbest ▸ List.mem_cons_self)
        · exact .inl hbest
      · exact .inr (Option.some.inj hbest ▸ List.mem_cons_self)
    · exact .inr (List.mem_cons_of_mem first hmem)

/-- A match that is found is of the table's own key, or of an index. -/
theorem of_find {m : KeyMatch} (h : find r model conditions = .ok (some m)) :
    (∃ keys position, r.primaryKey model = .ok keys ∧
      findEquality conditions keys.partition = some position ∧
      m = ofPartition conditions none keys position) ∨
    ∃ position c, conditions[position]? = some c ∧
      ofIndex? r model conditions position c = some m := by
  unfold find at h
  obtain ⟨keys, hkeys, h⟩ := exists_of_bind_eq_ok h
  split at h
  · rename_i position hposition
    exact .inl ⟨keys, position, hkeys, hposition, (Option.some.inj (Except.ok.inj h)).symm⟩
  · rcases foldl_better_mem _ (Except.ok.inj h) with hnone | hmem
    · cases hnone
    · obtain ⟨found, hfound, rfl⟩ := List.mem_filterMap.mp hmem
      obtain ⟨i, hi, hindex⟩ := List.mem_mapIdx.mp hfound
      exact .inr ⟨i, _, List.getElem?_eq_getElem hi, hindex⟩

theorem serves_of_find {m : KeyMatch} (h : find r model conditions = .ok (some m)) :
    m.Serves r model conditions := by
  rcases of_find h with ⟨keys, position, -, hposition, rfl⟩ | ⟨position, c, hc, hindex⟩
  · exact ⟨fits_ofPartition (of_findEquality hposition), fun index hindex => by cases hindex⟩
  · exact serves_ofIndex? hc hindex

/-- The sort attribute of a match is that of the table's own key, or of the index. -/
theorem sort_of_find {m : KeyMatch} (h : find r model conditions = .ok (some m)) {field : String}
    (hfield : m.keys.sort = some field) :
    match m.index with
    | none => ∃ keys, r.primaryKey model = .ok keys ∧ keys.sort = some field
    | some index => ∃ keys, r.indexKeys model index = some keys ∧ keys.sort = some field := by
  rcases of_find h with ⟨keys, position, hkeys, -, rfl⟩ | ⟨position, c, -, hindex⟩
  · exact ⟨keys, hkeys, hfield⟩
  · unfold ofIndex? at hindex
    split at hindex
    · obtain ⟨index, -, rfl⟩ := Option.map_eq_some_iff.mp hindex
      cases hkeys : r.indexKeys model index with
      | none => simp [ofPartition, hkeys] at hfield
      | some keys =>
        simp only [ofPartition, hkeys, Option.getD_some] at hfield ⊢
        exact ⟨keys, rfl, hfield⟩
    · cases hindex

variable (conditions) in
/-- A model with a primary key has a best match or none, and a match that is found serves. -/
theorem find_serves {keys : KeySchema} (hkeys : r.primaryKey model = .ok keys) :
    ∃ found, find r model conditions = .ok found ∧
      ∀ m, found = some m → m.Serves r model conditions := by
  obtain ⟨found, hfound⟩ : ∃ found, find r model conditions = .ok found := by
    unfold find
    rw [hkeys]
    dsimp only [bind, Except.bind]
    split <;> exact ⟨_, rfl⟩
  exact ⟨found, hfound, fun m hm => serves_of_find (hm ▸ hfound)⟩

end KeyMatch

/-- A required membership of a field is found. -/
theorem Membership.exists_find? {c : NormalizedCondition} (hc : c ∈ conditions)
    (hmember : c.isKeyMembership = true) : ∃ m, find? conditions c.field = some m := by
  have hsome : (conditions.findIdx? fun d => d.isKeyMembership ∧ d.field = c.field).isSome := by
    rw [List.findIdx?_isSome, List.any_eq_true]
    exact ⟨c, hc, by simp [hmember]⟩
  obtain ⟨i, hi⟩ := Option.isSome_iff_exists.mp hsome
  obtain ⟨hlt, -⟩ := List.findIdx?_eq_some_iff_getElem.mp hi
  refine Option.isSome_iff_exists.mp ?_
  unfold find?
  rw [hi]
  simp [hlt]

/-- The conditions give a strategy what it needs. -/
def Strategy.Rests (r : Resolver) (model : String) (keys : KeySchema)
    (conditions : List NormalizedCondition) (found : Option KeyMatch) : Strategy → Prop
  | .primaryKeyQuery | .secondaryIndexQuery _ =>
    ∃ m, found = some m ∧ m.Serves r model conditions
  | .multiQuery index field =>
    (∃ name, r.indexName model name = some index) ∧ ∃ m, Membership.find? conditions field = some m
  | .batchGet => keys.isSimple = true ∧ ∃ m, Membership.find? conditions keys.partition = some m
  | .scan => True

variable (conditions) in
theorem Strategy.ofMemberships_rests {keys : KeySchema} (hkeys : r.primaryKey model = .ok keys)
    (found : Option KeyMatch) : ∃ s, ofMemberships r model conditions = .ok s ∧
      s.Rests r model keys conditions found := by
  unfold ofMemberships
  dsimp only
  split
  · rename_i s hs
    refine ⟨s, rfl, ?_⟩
    obtain ⟨c, hc, hindex⟩ := List.exists_of_findSome?_eq_some hs
    obtain ⟨index, hname, rfl⟩ := Option.map_eq_some_iff.mp hindex
    obtain ⟨hmem, hmember⟩ := List.mem_filter.mp hc
    exact ⟨⟨c.field, hname⟩, Membership.exists_find? hmem hmember⟩
  · rw [hkeys]
    dsimp only [bind, Except.bind]
    split
    · rename_i hsimple
      obtain ⟨hsimple, hany⟩ := hsimple
      obtain ⟨c, hc, hfield⟩ := List.any_eq_true.mp hany
      obtain ⟨hmem, hmember⟩ := List.mem_filter.mp hc
      have hfield : c.field = keys.partition := by simpa using hfield
      exact ⟨_, rfl, hsimple, hfield ▸ Membership.exists_find? hmem hmember⟩
    · exact ⟨_, rfl, trivial⟩

/-- A query for whole rows of a model, in any order and with nothing attached. -/
structure FindQuery.IsPlain (q : FindQuery) : Prop where
  model : q.model ≠ ""
  sort : q.sort = none
  offset : q.offset = none
  select : q.select = none
  joins : q.joins = []

namespace Plan

/-- The plan is one for whole rows under the conditions, in any order and with nothing attached. -/
structure IsPlain (p : Plan) (q : FindQuery) (table : String) (keys : KeySchema)
    (conditions : List NormalizedCondition) : Prop where
  model : p.model = q.model
  table : p.table = table
  keys : p.keys = keys
  conditions : p.conditions = conditions
  sort : p.sort = none
  limit : p.limit = q.limit
  offset : p.offset = 0
  select : p.select = none
  joins : p.joins = []
  clientFilter : p.directives.clientFilter = needsClientFilter p.directives.baseStrategy p.conditions
  fetchLimit : p.directives.fetchLimit =
    if p.directives.clientFilter then none else p.limit.map fun n => addSizes n 0

/-- The plan's strategy is the one for its conditions, and the conditions give it what it needs. -/
structure Rests (p : Plan) (r : Resolver) : Prop where
  found : KeyMatch.find r p.model p.conditions = .ok p.keyMatch
  strategy_eq : ∀ m, p.keyMatch = some m → p.directives.baseStrategy = m.strategy
  strategy : p.directives.baseStrategy.Rests r p.model p.keys p.conditions p.keyMatch

/-- A query for whole rows has a plan, and its strategy has what it needs. -/
theorem exists_ofQuery {q : FindQuery} (hplain : q.IsPlain) (c : Config) {table : String}
    {keys : KeySchema} (htable : r.table q.model = .ok table)
    (hkeys : r.primaryKey q.model = .ok keys)
    (hconditions : normalizeAll r q.model q.conditions = .ok conditions) :
    ∃ p, ofQuery r c q = .ok p ∧ p.IsPlain q table keys conditions ∧ p.Rests r := by
  obtain ⟨found, hfound, hserves⟩ := KeyMatch.find_serves conditions hkeys
  obtain ⟨s, hs, hrests⟩ : ∃ s, Strategy.ofConditions r q.model conditions = .ok s ∧
      s.Rests r q.model keys conditions found := by
    rw [Strategy.ofConditions, hfound]
    cases found with
    | none => exact Strategy.ofMemberships_rests conditions hkeys none
    | some m =>
      refine ⟨m.strategy, rfl, ?_⟩
      unfold KeyMatch.strategy
      split <;> exact ⟨m, rfl, hserves m rfl⟩
  have hparts : Parts.AreOf ⟨table, keys, conditions, found, s, []⟩ r c q :=
    ⟨hplain.model, htable, hkeys, hconditions, hfound, hs, by rw [hplain.joins]; rfl⟩
  refine ⟨_, hparts.ofQuery_eq, ?_, hfound, fun m hm => hparts.strategy_eq hm, hrests⟩
  constructor <;> simp [Parts.plan, hplain.sort, hplain.offset, hplain.select]

/-- What a plan takes over from a query, and how it is to be sorted: by the store, if walking the matched key
yields the wanted order, and otherwise in memory. -/
structure Follows (p : Plan) (r : Resolver) (q : FindQuery) : Prop where
  model : p.model = q.model
  table : r.table q.model = .ok p.table
  conditions : normalizeAll r q.model q.conditions = .ok p.conditions
  found : KeyMatch.find r q.model p.conditions = .ok p.keyMatch
  strategy_eq : ∀ m, p.keyMatch = some m → p.directives.baseStrategy = m.strategy
  strategy : Strategy.ofConditions r p.model p.conditions = .ok p.directives.baseStrategy
  sort : p.sort = q.sort.map fun s => { s with field := r.fieldName q.model s.field }
  serverSort : p.directives.serverSort = serverSort? p.sort p.keyMatch
  clientSort : p.directives.clientSort = (p.sort.isSome && p.directives.serverSort.isNone)
  select : p.select = q.select.map (List.map (r.fieldName q.model))
  joins : q.joins = [] → p.joins = []

theorem follows_of_ofQuery {c : Config} {q : FindQuery} {p : Plan} (h : ofQuery r c q = .ok p) :
    p.Follows r q := by
  obtain ⟨a, ha, rfl⟩ := exists_parts h
  refine ⟨rfl, ha.table, ha.conditions, ha.keyMatch, fun m hm => ha.strategy_eq hm, ha.strategy, rfl, rfl,
    rfl, rfl, fun hnone => ?_⟩
  have hjoins := ha.joins
  rw [hnone] at hjoins
  show a.joins.map Prod.fst = []
  rw [← Except.ok.inj hjoins]
  rfl

/-- The strategy of a plan is the one for its conditions. -/
theorem ofConditions_of_ofQuery {c : Config} {q : FindQuery} {p : Plan}
    (h : ofQuery r c q = .ok p) :
    Strategy.ofConditions r p.model p.conditions = .ok p.directives.baseStrategy :=
  (follows_of_ofQuery h).strategy

end Plan

/-- A single membership is looked up in an index of its field, or else in one batch if its field is
the key of the table. -/
theorem Strategy.ofConditions_membership {keys : KeySchema} (hkeys : r.primaryKey model = .ok keys)
    {c : NormalizedCondition} (hc : c.isKeyMembership = true) :
    ofConditions r model [c] = .ok (match r.indexName model c.field with
      | some index => .multiQuery index c.field
      | none => if keys.isSimple ∧ c.field = keys.partition then .batchGet else .scan) := by
  have hop : c.operator = .isIn := by
    simp only [NormalizedCondition.isKeyMembership, decide_eq_true_eq] at hc
    exact hc.2.1
  have hequality : c.isKeyEquality = false := by simp [NormalizedCondition.isKeyEquality, hop]
  have hfind : KeyMatch.find r model [c] = .ok none := by
    unfold KeyMatch.find
    rw [hkeys]
    simp [KeyMatch.findEquality, KeyMatch.ofIndex?, hequality, bind, Except.bind]
  rw [ofConditions, hfind]
  show ofMemberships r model [c] = _
  unfold ofMemberships
  rw [List.filter_cons_of_pos hc, List.filter_nil, hkeys]
  cases hindex : r.indexName model c.field <;> simp [hindex, bind, Except.bind]
  split <;> rfl

/-- A single membership is found. -/
theorem Membership.find?_singleton {c : NormalizedCondition} (hc : c.isKeyMembership = true) :
    find? [c] c.field = some ⟨c.value.candidates, []⟩ := by
  simp [find?, hc, keepPositions]

end KeyedQuery
