import KeyedQuery.Proofs.Database.Reads
import KeyedQuery.Proofs.Database.Windows
import KeyedQuery.Proofs.Plan.Members

/-!
# Queries for the members of a list

A query whose only condition is a membership in a list, of an indexed field or of the key of a table, is
answered value by value. It finds the rows whose attribute agrees with a value of the list, no others
and all of them, but not always once and in the order of the list: `Database.findMany_members_iff` says
for which rows and lists it does.
-/

namespace KeyedQuery

variable {tables : Fields Table} {pageSize : Option Nat} {calm : Prop} {t : Table}
  {policy : FetchPolicy} {p : Plan} {field : String} {xs : List Value} {mark : Bool}

/-- The required membership of a field in a list. -/
def NormalizedCondition.member (field : String) (xs : List Value) (mark : Bool) :
    NormalizedCondition :=
  ⟨field, .isIn, .list xs, .and, mark⟩

theorem NormalizedCondition.field_member : (member field xs mark).field = field :=
  rfl

theorem NormalizedCondition.isKeyMembership_member :
    (member field xs mark).isKeyMembership = true := by
  simp [member, isKeyMembership, Value.isList]

theorem matchesAll_member (item : Item) : matchesAll [.member field xs mark] item =
    xs.any fun x => fieldAgrees field x item := by
  rw [matchesAll_eq_allHold (by simp [NormalizedCondition.member]), allHold, List.all_cons,
    List.all_nil, Bool.and_true, holds_membership rfl rfl]
  exact any_fieldAgrees_distinct field xs item

/-- The membership is found with its distinct values and nothing else. -/
theorem Membership.find?_member :
    find? [.member field xs mark] field = some ⟨Value.distinct xs, []⟩ :=
  find?_singleton (c := .member field xs mark) NormalizedCondition.isKeyMembership_member

namespace Plan

/-! ## Fetching -/

/-- An index is queried for one distinct value after another. -/
theorem ensures_fetch_multiQuery (hpageSize : pageSize ≠ some 0) (hwell : t.WellKeyed)
    (ht : Fields.get? tables p.table = some t) {index : String}
    (hindex : (Fields.get? t.indexes index).isSome)
    (hconditions : p.conditions = [.member field xs mark])
    (hstrategy : p.directives.baseStrategy = .multiQuery index field) :
    ∃ part : Value → List Item, (∀ v, (part v).Perm (t.items.filter (fieldAgrees field v))) ∧
      Run.Ensures Memory.receive (Memory.Holds tables pageSize calm) (p.fetch policy none)
        (fun items => items = (Value.distinct xs).flatMap part)
        (policy.Tolerates calm policy.furtherPages t.items.length) := by
  have hparts : ∀ v, ∃ rows, rows.Perm (t.items.filter (fieldAgrees field v)) ∧ ∀ limit,
      Run.Ensures Memory.receive (Memory.Holds tables pageSize calm)
        (policy.collect (p.valueQuery index field [] v) limit)
        (fun items => items = takeAtMost limit rows)
        (policy.Tolerates calm policy.furtherPages t.items.length) := by
    intro v
    have hyields : t.Yields p.table (p.valueQuery index field [] v) (fieldAgrees field v)
        (filterPasses []) := yields_valueQuery v hindex (by simp) (by simp)
    obtain ⟨rows, hperm, hcollect⟩ := hyields.exists_collected hpageSize hwell ht
    have hall : (fun item => fieldAgrees field v item && filterPasses [] item) = fieldAgrees field v :=
      funext fun item => Bool.and_true _
    exact ⟨rows, hall ▸ hperm, fun limit => (hcollect limit).imp (fun _ h => h) fun _ h =>
      h.mono (List.length_filter_le _ _)⟩
  choose part hpart hcollect using hparts
  refine ⟨part, hpart, ?_⟩
  have hrequests : p.pageRequests = .ok ((Value.distinct xs).map (p.valueQuery index field [])) := by
    rw [pageRequests, hstrategy]
    show p.valueQueries index field = _
    rw [valueQueries, hconditions, Membership.find?_member]
  rw [fetch_eq_collectInTurn (by simp [hstrategy]), hrequests]
  refine .bind (.ofExcept (fun a ha => (Except.ok.inj ha).symm) fun fault hfault => by cases hfault)
    fun a ha => ?_
  rw [ha]
  refine ensures_collectInTurn none ?_ [] rfl
  rw [List.forall₂_map_left_iff, List.forall₂_map_right_iff, List.forall₂_same]
  exact fun v _ => hcollect v

/-- The distinct values are the keys of a batch. -/
theorem ensures_fetch_batchGet (hwell : t.WellKeyed) (ht : Fields.get? tables p.table = some t)
    (hattributes : t.keys.attributes = [field]) (hkeys : p.keys.partition = field)
    (hconditions : p.conditions = [.member field xs mark])
    (hstrategy : p.directives.baseStrategy = .batchGet) :
    Run.Ensures Memory.receive (Memory.Holds tables pageSize calm) (p.fetch policy none)
      (fun items => items = batchRows field xs t.items)
      (policy.Tolerates calm policy.furtherPages t.items.length) := by
  have hvalues : p.partitionValues = .ok (Value.distinct xs) := by
    rw [partitionValues, hconditions, hkeys, Membership.find?_member]
  unfold fetch
  rw [hstrategy]
  dsimp only
  rw [hvalues, hkeys]
  refine .bind (.ofExcept (fun a ha => (Except.ok.inj ha).symm) fun fault hfault => by cases hfault)
    fun a ha => ?_
  subst ha
  refine ((policy.retry.ensures_batchGet _ ht).imp (fun _ h => h) fun fault hfault hcalm =>
    absurd hcalm hfault).bind fun items hitems => .pure ?_
  rw [hitems, hwell.filterMap_find?_eq hattributes, batchRows]

/-- A plan for whole rows without limit leaves rows that satisfy its conditions as they are. -/
theorem IsPlain.finish_eq {q : FindQuery} {table : String} {keys : KeySchema}
    {conditions : List NormalizedCondition} (hp : p.IsPlain q table keys conditions)
    (hlimit : q.limit = none) {rows : List Item}
    (hrows : ∀ item ∈ rows, matchesAll conditions item = true) : p.finish rows = rows := by
  have hfilter : p.filterRows rows = rows := by
    rw [filterRows]
    split
    · rw [keepMatching, hp.conditions]
      exact List.filter_eq_self.mpr hrows
    · rfl
  rw [finish, hfilter, selectRows, hp.select, sortRows, hp.sort, cutWindow, hp.offset, hp.limit,
    hlimit]
  rfl

end Plan

/-! ## Finding -/

/-- What a fetch without page limit finds in a calm store. -/
theorem Database.run_of_ensures {db : Database} {w : World Memory} (hcalm : w.store.IsCalm)
    (hmode : db.config.pageMode = .unbounded) {n : Nat} (hhorizon : n ≤ db.horizon)
    {fetch : Run (List Item)} {Q : List Item → Prop}
    (h : Run.Ensures Memory.receive (Memory.Holds w.store.tables w.store.pageSize True) fetch Q
      (db.policy.Tolerates True db.policy.furtherPages n)) :
    ∃ rows, (fetch.run.run Memory.receive w).1 = .ok rows ∧ Q rows := by
  have hend := (h w ⟨rfl, rfl, fun _ => hcalm.failures_eq, fun _ => hcalm.rounds_eq⟩).2
  cases hresult : (fetch.run.run Memory.receive w).1 with
  | ok rows =>
    rw [hresult] at hend
    exact ⟨rows, rfl, hend⟩
  | error fault =>
    rw [hresult] at hend
    have hthrow := (eq_pageLimit_of_tolerates hend hhorizon).2
    rw [hmode] at hthrow
    cases hthrow

section Fetched

variable {db : Database} {w : World Memory}

theorem Database.run_fetch_multiQuery (hcalm : w.store.IsCalm)
    (hmode : db.config.pageMode = .unbounded) (hpageSize : w.store.pageSize ≠ some 0)
    (hwell : t.WellKeyed) (ht : Fields.get? w.store.tables p.table = some t)
    (hhorizon : t.items.length ≤ db.horizon) {index : String}
    (hindex : (Fields.get? t.indexes index).isSome)
    (hconditions : p.conditions = [.member field xs mark])
    (hstrategy : p.directives.baseStrategy = .multiQuery index field) :
    ∃ rows, ((p.fetch db.policy none).run.run Memory.receive w).1 = .ok rows ∧
      (∀ row, row ∈ rows ↔ row ∈ t.items ∧ (xs.any fun x => fieldAgrees field x row) = true) ∧
      (ListsInOrder field xs t.items rows ↔ Separates field xs t.items) := by
  obtain ⟨part, hpart, hensures⟩ := Plan.ensures_fetch_multiQuery hpageSize hwell ht hindex
    hconditions hstrategy
  obtain ⟨rows, hrun, rfl⟩ := run_of_ensures hcalm hmode hhorizon hensures
  exact ⟨_, hrun, fun row => mem_flatMap_distinct hpart,
    listsInOrder_flatMap_iff hwell.nodup hpart⟩

theorem Database.run_fetch_batchGet (hcalm : w.store.IsCalm)
    (hmode : db.config.pageMode = .unbounded) (hwell : t.WellKeyed)
    (ht : Fields.get? w.store.tables p.table = some t) (hhorizon : t.items.length ≤ db.horizon)
    (hattributes : t.keys.attributes = [field]) (hkeys : p.keys.partition = field)
    (hconditions : p.conditions = [.member field xs mark])
    (hstrategy : p.directives.baseStrategy = .batchGet) :
    ∃ rows, ((p.fetch db.policy none).run.run Memory.receive w).1 = .ok rows ∧
      (∀ row, row ∈ rows ↔ row ∈ t.items ∧ (xs.any fun x => fieldAgrees field x row) = true) ∧
      (ListsInOrder field xs t.items rows ↔
        Separates field xs t.items ∧ GroupsFirst field xs t.items) := by
  obtain ⟨rows, hrun, rfl⟩ := run_of_ensures hcalm hmode hhorizon
    (Plan.ensures_fetch_batchGet hwell ht hattributes hkeys hconditions hstrategy)
  refine ⟨_, hrun, fun row => mem_batchRows, listsInOrder_batchRows_iff hwell.nodup fun v => ?_⟩
  have hfound := hwell.unique.toList_find? (Table.isKey_single hattributes v)
  rw [List.filter_congr fun item _ => hasKey_single item v] at hfound
  rw [← hfound]
  cases t.find? [(field, v)] <;> simp

end Fetched

end KeyedQuery
