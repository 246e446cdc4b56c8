import KeyedQuery.Database.Basic
import KeyedQuery.Proofs.Plan.Rows
import KeyedQuery.Proofs.Store.Writes

/-!
# Reading by model

A query for whole rows of a model finds the rows of the model's table that satisfy its conditions,
whichever way the plan reaches them (`Database.ensures_findMany`); the first row of a query is one of
these, and there is none only if no row satisfies the conditions (`Database.ensures_findOne`). In a
calm store the only way to fail is to need more pages than allowed (`Database.findMany_matches`).
-/

namespace KeyedQuery

/-! ## Normalized conditions -/

/-- Conditions are normalized one by one. -/
theorem forall₂_of_normalizeAll {r : Resolver} {model : String} {conditions : List Condition}
    {normalized : List NormalizedCondition} (h : normalizeAll r model conditions = .ok normalized) :
    List.Forall₂ (fun c n => c.normalize r model = .ok n) conditions normalized :=
  forall₂_of_mapM_eq_ok h

theorem Condition.isMarked_of_normalize {r : Resolver} {model : String} {c : Condition}
    {n : NormalizedCondition} (h : c.normalize r model = .ok n) : n.IsMarked := by
  unfold normalize at h
  cases hop : c.operator? with
  | error fault => simp [hop, bind, Except.bind] at h
  | ok op =>
    simp only [hop, bind, Except.bind, Except.ok.injEq] at h
    obtain rfl := h
    rfl

theorem isMarked_of_normalizeAll {r : Resolver} {model : String} {conditions : List Condition}
    {normalized : List NormalizedCondition} (h : normalizeAll r model conditions = .ok normalized) :
    ∀ n ∈ normalized, n.IsMarked := by
  have hforall := forall₂_of_normalizeAll h
  clear h
  induction hforall with
  | nil => simp
  | cons hfirst _ ih =>
    intro n hn
    rcases List.mem_cons.mp hn with rfl | hn
    · exact Condition.isMarked_of_normalize hfirst
    · exact ih n hn

/-! ## Models and tables -/

namespace Schema

variable {s : Schema} {model : String} {d : ModelDef}

theorem resolver_table (h : s.model? model = some d) : s.resolver.table model = .ok d.table := by
  simp only [resolver, h]

theorem resolver_primaryKey (h : s.model? model = some d) :
    s.resolver.primaryKey model = .ok d.primaryKey := by
  simp only [resolver, h]

/-- A model's table has every index that is known of the model. -/
theorem suits_of_isOf {t : Table} (h : s.model? model = some d) (ht : t.IsOf d) :
    Plan.Suits t s.resolver model d.primaryKey where
  keys_eq := ht.keys_eq
  indexes field index hindex := by
    simp only [resolver, h] at hindex
    obtain ⟨i, hi, hname⟩ := Option.bind_eq_some_iff.mp
      (show (d.indexes.find? fun index => index.keys.partition = field).bind
        (fun index => some index.name) = some index from hindex)
    obtain rfl := Option.some.inj hname
    rw [ht.indexes_eq, Fields.isSome_get?_iff, Fields.mem_names_ofList]
    exact List.mem_map.mpr ⟨(i.name, i.keys), List.mem_map.mpr
      ⟨i, List.mem_of_find?_eq_some hi, rfl⟩, rfl⟩

end Schema

namespace Database

variable {db : Database} {tables : Fields Table} {pageSize : Option Nat} {calm : Prop} {t : Table}
  {q : FindQuery} {conditions : List NormalizedCondition}

/-- A model of the database lies on a table of the store. -/
structure LiesOn (db : Database) (model : String) (tables : Fields Table) (t : Table) : Prop where
  exists_table : ∃ table, db.resolver.table model = .ok table ∧ Fields.get? tables table = some t
  primaryKey : db.resolver.primaryKey model = .ok t.keys
  suits : Plan.Suits t db.resolver model t.keys
  wellKeyed : t.WellKeyed

/-- In a store of a schema, each model lies on its table. -/
theorem exists_liesOn {s : Schema} (hs : s.TablesApart) {m : Memory} (hm : m.IsOf s)
    (hkeyed : m.WellKeyed) (hresolver : db.resolver = s.resolver) {model : String} {d : ModelDef}
    (hmodel : s.model? model = some d) :
    ∃ t, Fields.get? m.tables d.table = some t ∧ db.LiesOn model m.tables t := by
  obtain ⟨t, ht, hof⟩ := hm.exists_table hs hmodel
  refine ⟨t, ht, ⟨d.table, hresolver ▸ s.resolver_table hmodel, ht⟩, ?_, ?_, hkeyed _ _ ht⟩
  · rw [hresolver, hof.keys_eq]
    exact s.resolver_primaryKey hmodel
  · rw [hresolver, hof.keys_eq]
    exact s.suits_of_isOf hmodel hof

/-- Every model of the database lies on a table of the store. -/
def LiesIn (db : Database) (tables : Fields Table) : Prop :=
  ∀ model table, db.resolver.table model = .ok table →
    ∃ t, Fields.get? tables table = some t ∧ db.LiesOn model tables t

/-- In a store of a schema, every model lies on its table. -/
theorem liesIn {s : Schema} (hs : s.TablesApart) {m : Memory} (hm : m.IsOf s) (hkeyed : m.WellKeyed)
    (hresolver : db.resolver = s.resolver) : db.LiesIn m.tables := by
  intro model table htable
  rw [hresolver] at htable
  cases hmodel : s.model? model with
  | none => simp [Schema.resolver, hmodel] at htable
  | some d =>
    obtain rfl := Except.ok.inj ((s.resolver_table hmodel).symm.trans htable)
    exact exists_liesOn hs hm hkeyed hresolver hmodel

/-- A query finds what its plan fetches, as far as it satisfies the conditions. -/
theorem ensures_findMany_of_fetches (hlies : db.LiesOn q.model tables t) {n : Nat}
    (hplain : q.IsPlain) (hlimit : ∀ n, q.limit = some n → n ≤ Plan.maxSize)
    (hconditions : normalizeAll db.resolver q.model q.conditions = .ok conditions)
    (hfetches : ∀ p : Plan, p.model = q.model → p.keys = t.keys → p.conditions = conditions →
      p.Rests db.resolver → Fields.get? tables p.table = some t →
      p.Fetches db.policy tables pageSize calm t n (p.fetch db.policy)) :
    ∃ rows, Covers rows t.items (matchesAll conditions) (Plan.PlainMembers conditions) ∧
      Run.Ensures Memory.receive (Memory.Holds tables pageSize calm) (db.findMany q)
        (fun items => items = takeAtMost q.limit rows)
        (db.policy.Tolerates calm db.policy.furtherPages n) := by
  obtain ⟨table, htable, ht⟩ := hlies.exists_table
  obtain ⟨p, hp, hplan, hrests⟩ := Plan.exists_ofQuery hplain db.config htable hlies.primaryKey
    hconditions
  obtain ⟨rows, hcovers, hrows⟩ := hplan.ensures_rows
    (hfetches p hplan.model hplan.keys hplan.conditions hrests (hplan.table ▸ ht)) hlimit
  refine ⟨rows, hcovers, ?_⟩
  unfold findMany plan
  rw [hp]
  exact .bind (.ofExcept (fun a ha => (Except.ok.inj ha).symm) fun fault hfault => by cases hfault)
    fun a ha => ha ▸ hrows

/-- The first row of a query is one that its plan fetches and that satisfies the conditions. -/
theorem ensures_findOne_of_fetches (hlies : db.LiesOn q.model tables t) {n : Nat}
    (hplain : q.IsPlain)
    (hconditions : normalizeAll db.resolver q.model q.conditions = .ok conditions)
    (hfetches : ∀ p : Plan, p.model = q.model → p.keys = t.keys → p.conditions = conditions →
      p.Rests db.resolver → Fields.get? tables p.table = some t →
      p.Fetches db.policy tables pageSize calm t n (p.fetch db.policy)) :
    Run.Ensures Memory.receive (Memory.Holds tables pageSize calm) (db.findOne q)
      (Finds t.items (matchesAll conditions))
      (db.policy.Tolerates calm db.policy.furtherPages n) := by
  obtain ⟨rows, hcovers, hrows⟩ := ensures_findMany_of_fetches (q := { q with limit := some 1 })
    hlies ⟨hplain.model, hplain.sort, hplain.offset, hplain.select, hplain.joins⟩
    (fun n hn => by
      obtain rfl := Option.some.inj hn
      decide +kernel) hconditions hfetches
  refine hrows.bind fun items hitems => .pure ?_
  have hhead : items.head? = rows.head? := by
    rw [hitems]
    cases rows <;> rfl
  rw [hhead]
  exact hcovers.finds_head?

theorem fetches_fetch (hlies : db.LiesOn q.model tables t) (hpageSize : pageSize ≠ some 0)
    (hconditions : normalizeAll db.resolver q.model q.conditions = .ok conditions)
    (hdefinite : ∀ c ∈ conditions, c.IsDefinite) (p : Plan) (hmodel : p.model = q.model)
    (hkeys : p.keys = t.keys) (hp : p.conditions = conditions) (hrests : p.Rests db.resolver)
    (ht : Fields.get? tables p.table = some t) :
    p.Fetches db.policy tables pageSize calm t t.items.length (p.fetch db.policy) :=
  Plan.fetches_fetch hpageSize hlies.wellKeyed ht (by rw [hmodel, hkeys]; exact hlies.suits)
    hrests.strategy ⟨hp ▸ isMarked_of_normalizeAll hconditions, hp ▸ hdefinite⟩

variable (calm) in
/-- A query for whole rows finds those that satisfy its conditions, as many as it is limited to. -/
theorem ensures_findMany (hlies : db.LiesOn q.model tables t) (hpageSize : pageSize ≠ some 0)
    (hplain : q.IsPlain) (hlimit : ∀ n, q.limit = some n → n ≤ Plan.maxSize)
    (hconditions : normalizeAll db.resolver q.model q.conditions = .ok conditions)
    (hdefinite : ∀ c ∈ conditions, c.IsDefinite) :
    ∃ rows, Covers rows t.items (matchesAll conditions) (Plan.PlainMembers conditions) ∧
      Run.Ensures Memory.receive (Memory.Holds tables pageSize calm) (db.findMany q)
        (fun items => items = takeAtMost q.limit rows)
        (db.policy.Tolerates calm db.policy.furtherPages t.items.length) :=
  ensures_findMany_of_fetches hlies hplain hlimit hconditions
    (fetches_fetch hlies hpageSize hconditions hdefinite)

/-- The first row of a query is one that satisfies its conditions, and there is none only if no row
does. -/
theorem ensures_findOne (hlies : db.LiesOn q.model tables t) (hpageSize : pageSize ≠ some 0)
    (hplain : q.IsPlain)
    (hconditions : normalizeAll db.resolver q.model q.conditions = .ok conditions)
    (hdefinite : ∀ c ∈ conditions, c.IsDefinite) :
    Run.Ensures Memory.receive (Memory.Holds tables pageSize calm) (db.findOne q)
      (Finds t.items (matchesAll conditions))
      (db.policy.Tolerates calm db.policy.furtherPages t.items.length) :=
  ensures_findOne_of_fetches hlies hplain hconditions
    (fetches_fetch hlies hpageSize hconditions hdefinite)

/-- The fault that a fetch of a calm store ends with, if it ends with one. -/
theorem eq_pageLimit_of_tolerates {rows : Nat} {fault : Fault}
    (h : db.policy.Tolerates True db.policy.furtherPages rows fault) (hhorizon : rows ≤ db.horizon) :
    fault = .pageLimit db.config.maxPages ∧ db.config.pageMode = .throw := by
  obtain ⟨hexhausted, hlt⟩ := h trivial
  unfold policy Config.fetchPolicy at hexhausted hlt
  cases hmode : db.config.pageMode with
  | throw =>
    rw [hmode] at hexhausted
    exact ⟨hexhausted, rfl⟩
  | unbounded =>
    rw [hmode] at hlt
    dsimp only at hlt
    omega

end Database

end KeyedQuery
