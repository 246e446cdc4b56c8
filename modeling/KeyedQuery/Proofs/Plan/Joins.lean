import KeyedQuery.Plan.Join
import KeyedQuery.Proofs.Fetch.Limits
import KeyedQuery.Proofs.Plan.Rows
import KeyedQuery.Proofs.Plan.Traversal
import KeyedQuery.Proofs.Plan.Values

/-!
# Joined rows

A join looks up the distinct local values together, in queries of their own, in one batch get or in
scans for many values at once, and sorts the target rows into groups. Whichever way it takes, the group
of a value begins with the rows that looking up this value alone yields (`ResolvedJoin.Delivers`), as
far as the join attaches them. So what a row gets does not depend on the other rows
(`ResolvedJoin.Targets.value_attach`).
-/

namespace KeyedQuery

open Placeholders

variable {m : Memory} {t : Table} {policy : FetchPolicy} {j : ResolvedJoin}

/-! ## Groups -/

/-- If one element at most has a property, and the others contribute nothing, it contributes all. -/
theorem flatMap_eq_of_pairwise {α β : Type} {P : α → Prop} {f : α → List β} :
    ∀ {xs : List α} {a : α}, (xs.Pairwise fun x y => P x → ¬P y) → a ∈ xs → P a →
      (∀ x ∈ xs, ¬P x → f x = []) → xs.flatMap f = f a
  | x :: xs, a, hpairwise, ha, hP, hothers => by
    obtain ⟨hx, hrest⟩ := List.pairwise_cons.mp hpairwise
    rw [List.flatMap_cons]
    rcases List.mem_cons.mp ha with rfl | ha
    · have hnone : xs.flatMap f = [] := List.flatMap_eq_nil_iff.mpr fun y hy =>
        hothers y (List.mem_cons_of_mem _ hy) (hx y hy hP)
      rw [hnone, List.append_nil]
    · rw [hothers x List.mem_cons_self fun hPx => hx a ha hPx hP, List.nil_append]
      exact flatMap_eq_of_pairwise hrest ha hP fun y hy =>
        hothers y (List.mem_cons_of_mem _ hy)

/-- The rows in the group of an exact value are those whose attribute agrees with it. -/
theorem group?_eq_some_iff {v : Value} (hv : v.IsExact) (field : String) (item : Item) :
    Item.group? item field = some v.groupKey ↔ fieldAgrees field v item = true := by
  unfold Item.group? fieldAgrees
  cases Fields.get? item field with
  | none => simp
  | some w =>
    rw [Option.any_some, ← Value.groupKey_eq_iff hv]
    cases hnull : w.isNull with
    | false => simp [hnull]
    | true =>
      have hne : w.groupKey ≠ v.groupKey := fun heq => by
        have hagrees : v.agrees .null = true := Value.agrees_trans
          (Value.agrees_of_groupKey_eq heq.symm) (Value.agrees_null.trans hnull)
        rw [Value.agrees_null, hv.isNull_eq_false] at hagrees
        cases hagrees
      simpa [hnull] using hne

section

variable {values : List Value} {field : String} (hexact : ∀ v ∈ values, v.IsExact)
  (hdistinct : values.Pairwise fun v w => v.groupKey ≠ w.groupKey)
include hexact hdistinct

/-- Among the rows of several values, the group of a value is what was found for it. -/
theorem filter_flatMap_group {part : Value → List Item}
    (hpart : ∀ v, ∀ item ∈ part v, fieldAgrees field v item = true) {v : Value}
    (hv : v ∈ values) : ((values.flatMap part).filter fun item =>
      Item.group? item field = some v.groupKey) = part v := by
  have hgroup : ∀ w ∈ values, ∀ item ∈ part w, Item.group? item field = some w.groupKey :=
    fun w hw item hitem => (group?_eq_some_iff (hexact w hw) field item).mpr (hpart w item hitem)
  have hself : ((part v).filter fun item => Item.group? item field = some v.groupKey) = part v :=
    List.filter_eq_self.mpr fun item hitem => by simpa using hgroup v hv item hitem
  rw [List.filter_flatMap]
  refine (flatMap_eq_of_pairwise (P := fun w => w.groupKey = v.groupKey)
    (hdistinct.imp fun hne hw hw' => hne (hw.trans hw'.symm)) hv rfl fun w hw hne => ?_).trans hself
  refine List.filter_eq_nil_iff.mpr fun item hitem => ?_
  simpa [hgroup w hw item hitem] using hne

/-- Among the rows that agree with one of a chunk of values, chunk by chunk, the group of a value is the
rows that agree with it. -/
theorem filter_chunks_group {chunks : List (List Value)} (hchunks : chunks.flatten = values)
    (items : List Item) {v : Value} (hv : v ∈ values) :
    ((chunks.flatMap fun chunk => items.filter fun item =>
        chunk.any fun w => fieldAgrees field w item).filter fun item =>
      Item.group? item field = some v.groupKey) = items.filter (fieldAgrees field v) := by
  subst hchunks
  have hgroup := fun w hw item => group?_eq_some_iff (hexact w hw) field item
  obtain ⟨chunk, hchunk, hvchunk⟩ := List.mem_flatten.mp hv
  have hself : ((items.filter fun item => chunk.any fun w => fieldAgrees field w item).filter
      fun item => Item.group? item field = some v.groupKey) = items.filter (fieldAgrees field v) := by
    rw [List.filter_filter]
    refine List.filter_congr fun item _ => ?_
    rw [Bool.eq_iff_iff, Bool.and_eq_true, decide_eq_true_iff, hgroup v hv item]
    exact ⟨And.left, fun hitem => ⟨hitem, List.any_eq_true.mpr ⟨v, hvchunk, hitem⟩⟩⟩
  rw [List.filter_flatMap]
  refine (flatMap_eq_of_pairwise (P := fun chunk => ∃ w ∈ chunk, w.groupKey = v.groupKey)
    ((List.pairwise_flatten.mp hdistinct).2.imp ?_) hchunk ⟨v, hvchunk, rfl⟩
    fun other hother hnone => ?_).trans hself
  · rintro c d hapart ⟨w, hw, hwv⟩ ⟨w', hw', hwv'⟩
    exact hapart w hw w' hw' (hwv.trans hwv'.symm)
  · rw [List.filter_filter, List.filter_eq_nil_iff]
    intro item _ hitem
    rw [Bool.and_eq_true, decide_eq_true_iff] at hitem
    obtain ⟨w, hw, hagrees⟩ := List.any_eq_true.mp hitem.2
    have hwgroup := (hgroup w (List.mem_flatten.mpr ⟨other, hother, hw⟩) item).mpr hagrees
    exact hnone ⟨w, hw, Option.some.inj (hwgroup.symm.trans hitem.1)⟩

end

namespace ResolvedJoin

/-! ## Requests -/

/-- The rows whose attribute agrees with a value answer the query for it, in the order of the sort
attribute. -/
theorem answers_valueQuery (j : ResolvedJoin) {index sort : Option String}
    (hsort : t.sortAttribute index = .ok sort) (v : Value) :
    t.Answers (j.valueQuery index v)
      (Table.arrange sort (t.items.filter (fieldAgrees j.foreignField v))) fun _ => true := by
  have hwrites : Writes (do
      let keyCondition ← partitionCondition j.foreignField v
      pure (keyCondition, (none : Option String))) fun r texts =>
        texts.2 = none ∧ TextMeans r.attributes texts.1 (fieldAgrees j.foreignField v) :=
    (writes_partitionCondition j.foreignField v).bind fun text =>
      Writes.pure fun r htext => ⟨rfl, textMeans_equality htext⟩
  obtain ⟨hfilter, p, hp, hholds⟩ := hwrites.run
  have htest : fieldAgrees j.foreignField v = p.holds := funext fun item => (hholds item).symm
  refine ⟨?_, ?_⟩
  · rw [htest]
    exact Table.candidates_query (q := j.valueQuery index v) rfl hsort hp
  · have hnone : (j.valueQuery index v).filter = none := hfilter
    rw [hnone]
    exact fun _ => rfl

/-- All rows qualify for the scan for some values, and those pass whose attribute agrees with one. -/
theorem answers_valuesScan (j : ResolvedJoin) {values : List Value} (hne : values ≠ []) :
    t.Answers (j.valuesScan values) t.items fun item =>
      values.any fun v => fieldAgrees j.foreignField v item := by
  have hwrites : Writes (some <$> memberFilter j.foreignField values) fun r text =>
      FilterMeans r.attributes text fun item =>
        values.any fun v => fieldAgrees j.foreignField v item := by
    refine Writes.map ((writes_name j.foreignField).bind fun name =>
      (Operator.writes_membership name j.foreignField hne).imp fun r text h hname =>
        textMeans_membership ((h hname).mono (by decide))) fun r text h => h
  exact ⟨rfl, hwrites.run⟩

theorem value_collectEach {α : Type} {limit : Option Nat} {request : α → PageRequest}
    {part : α → List Item} {xs : List α} (hparts : ∀ x ∈ xs,
      Run.value m.answer (policy.collect (request x) limit) = .ok (part x)) :
    Run.value m.answer (collectEach policy limit (xs.map request)) = .ok (xs.flatMap part) := by
  unfold collectEach
  rw [Run.value_bind, List.mapM_map]
  show (Run.value m.answer (xs.mapM fun x => policy.collect (request x) limit) >>= _) = _
  rw [Run.value_mapM hparts]
  rfl

/-- The target rows of a join lie in a table of a calm store, and a fetch may take a page for each of
them. -/
structure Targets (j : ResolvedJoin) (policy : FetchPolicy) (m : Memory) (t : Table) : Prop where
  calm : m.IsCalm
  pageSize : m.pageSize ≠ some 0
  table : Fields.get? m.tables j.table = some t
  wellKeyed : t.WellKeyed
  pages : t.items.length ≤ policy.furtherPages + 1

namespace Targets

variable (h : j.Targets policy m t)
include h

theorem value_collect {q : PageRequest} (htable : q.table = j.table) (hq : q.IsFirst)
    {rows : List Item} {passes : Item → Bool} (hanswers : t.Answers q rows passes)
    (limit : Option Nat) :
    Run.value m.answer (policy.collect q limit) = .ok (takeAtMost limit (rows.filter passes)) := by
  obtain ⟨test, hperm⟩ := Table.exists_perm_of_candidates hanswers.candidates
  exact policy.value_collect_of_length_le limit h.calm h.pageSize (htable ▸ h.table) hanswers
    (h.wellKeyed.keysApart.of_perm hperm) hq
    (hperm.length_eq.trans_le ((List.length_filter_le _ _).trans h.pages))

/-- Queries yield the rows of each value, as many as the join may attach. -/
theorem value_queries {index sort : Option String} (hsort : t.sortAttribute index = .ok sort)
    (values : List Value) :
    Run.value m.answer (collectEach policy (some j.cap) (values.map (j.valueQuery index))) =
      .ok (values.flatMap fun v => takeAtMost (some j.cap)
        (Table.arrange sort (t.items.filter (fieldAgrees j.foreignField v)))) := by
  refine value_collectEach fun v _ => ?_
  rw [h.value_collect rfl ⟨rfl, rfl, rfl⟩ (j.answers_valueQuery hsort v), List.filter_true]

/-- Scans yield the rows of the values of each chunk. -/
theorem value_scans (values : List Value) :
    Run.value m.answer
        (collectEach policy none ((chunksOf maxBatchKeys values).map j.valuesScan)) =
      .ok ((chunksOf maxBatchKeys values).flatMap fun chunk => t.items.filter fun item =>
        chunk.any fun v => fieldAgrees j.foreignField v item) :=
  value_collectEach fun chunk hchunk => by
    rw [h.value_collect rfl ⟨rfl, rfl, rfl⟩ (j.answers_valuesScan (ne_nil_of_mem_chunksOf hchunk))]
    rfl

/-- A batch get yields the rows of each value of a key attribute. -/
theorem value_batchGet (hkeys : t.keys.attributes = [j.foreignField]) (xs : List Value) :
    Run.value m.answer (policy.retry.batchGet j.table
        ((Value.distinct xs).map fun v => [(j.foreignField, v)])) =
      .ok ((Value.distinct xs).flatMap fun v => t.items.filter (fieldAgrees j.foreignField v)) := by
  rw [policy.retry.value_batchGet h.calm h.table, h.wellKeyed.filterMap_find?_eq hkeys]

end Targets

/-! ## Fetching -/

theorem asks_fetch (j : ResolvedJoin) (policy : FetchPolicy) (values : List Value)
    (strategy : Strategy) : Run.Asks Request.Reads (j.fetch policy values strategy) := by
  have hcollect : ∀ {request : PageRequest}, request.limit = none → ∀ limit,
      Run.Asks Request.Reads (policy.collect request limit) := fun h limit =>
    (policy.asks_collect h limit).mono fun _ => Request.Within.reads
  refine (Run.Asks.composes _).fetch_join ?_ (fun _ _ _ => hcollect rfl _) (fun _ _ => hcollect rfl _)
    strategy
  exact (policy.retry.asks_batchGet none j.table _).mono fun _ => Request.Within.reads

/-- The group of each value begins with the rows that were found for the value, as far as the join
attaches them. -/
def Delivers (j : ResolvedJoin) (found : Value → List Item) (values : List Value)
    (targets : List Item) : Prop :=
  ∀ v ∈ values, (targets.filter fun item =>
    Item.group? item j.foreignField = some v.groupKey).take j.cap = (found v).take j.cap

/-- A strategy that looks up single values of the join's foreign field, with the sort attribute in whose
order it reaches the rows of a value. -/
inductive Looks (j : ResolvedJoin) (t : Table) : Strategy → Option String → Prop
  | primaryKey : t.keys.partition = j.foreignField → Looks j t .primaryKeyQuery t.keys.sort
  | index {index : String} {sort : Option String} : t.sortAttribute (some index) = .ok sort →
      Looks j t (.secondaryIndexQuery index) sort
  | scan : Looks j t .scan none

/-- What the planner takes for a field of a model looks up its values. -/
theorem exists_looks {r : Resolver} {model : String} {keys : KeySchema}
    (hsuits : Plan.Suits t r model keys) (hkeys : r.primaryKey model = .ok keys)
    {strategy : Strategy} (hstrategy : Strategy.ofField r model j.foreignField = .ok strategy) :
    ∃ sort, j.Looks t strategy sort := by
  rw [Strategy.ofField, hkeys] at hstrategy
  dsimp only [bind, Except.bind] at hstrategy
  split at hstrategy
  · rename_i hpartition
    obtain rfl := Except.ok.inj hstrategy
    exact ⟨_, .primaryKey (hsuits.keys_eq ▸ hpartition)⟩
  · split at hstrategy
    · rename_i index hindex
      obtain rfl := Except.ok.inj hstrategy
      have hsome : ∃ sort, t.sortAttribute (some index) = .ok sort :=
        Table.exists_sortAttribute fun name hname => hsuits.indexes _ name (hname ▸ hindex)
      obtain ⟨sort, hsort⟩ := hsome
      exact ⟨sort, .index hsort⟩
    · obtain rfl := Except.ok.inj hstrategy
      exact ⟨none, .scan⟩

/-- The rows of a value, in the order of a sort attribute. -/
def rowsOf (j : ResolvedJoin) (t : Table) (sort : Option String) (v : Value) : List Item :=
  Table.arrange sort (t.items.filter (fieldAgrees j.foreignField v))

theorem rowsOf_perm (j : ResolvedJoin) (t : Table) (sort : Option String) (v : Value) :
    (j.rowsOf t sort v).Perm (t.items.filter (fieldAgrees j.foreignField v)) :=
  Table.arrange_perm sort _

theorem fieldAgrees_of_mem_rowsOf {sort : Option String} {v : Value} {item : Item}
    (h : item ∈ j.rowsOf t sort v) : fieldAgrees j.foreignField v item = true :=
  (List.mem_filter.mp ((j.rowsOf_perm t sort v).mem_iff.mp h)).2

/-- Values of one group have the same rows. -/
theorem rowsOf_congr (j : ResolvedJoin) (t : Table) (sort : Option String) {v w : Value}
    (h : v.groupKey = w.groupKey) : j.rowsOf t sort v = j.rowsOf t sort w := by
  have hagrees : fieldAgrees j.foreignField v = fieldAgrees j.foreignField w := by
    funext item
    unfold fieldAgrees
    congr 1
    exact funext (Value.agrees_congr_right (Value.agrees_of_groupKey_eq h))
  rw [rowsOf, hagrees, rowsOf]

/-- The strategy yields the rows of one value in its order, as far as the join attaches them. -/
theorem Targets.exists_fetch_single (h : j.Targets policy m t) {strategy : Strategy}
    {sort : Option String} (hlooks : j.Looks t strategy sort) (v : Value) :
    ∃ fetched, Run.value m.answer (j.fetch policy [v] strategy) = .ok fetched ∧
      fetched.take j.cap = (j.rowsOf t sort v).take j.cap := by
  cases hlooks with
  | primaryKey hpartition =>
    refine ⟨_, h.value_queries (show t.sortAttribute none = _ from rfl) [v], ?_⟩
    simp [takeAtMost, List.take_take, rowsOf]
  | index hsort =>
    refine ⟨_, h.value_queries hsort [v], ?_⟩
    simp [takeAtMost, List.take_take, rowsOf]
  | scan =>
    refine ⟨_, h.value_scans [v], ?_⟩
    have hchunks : chunksOf maxBatchKeys [v] = [[v]] := by simp [chunksOf]
    simp [hchunks, rowsOf, Table.arrange]

section

variable {values : List Value} (hexact : ∀ v ∈ values, v.IsExact)
  (hdistinct : values.Pairwise fun v w => v.groupKey ≠ w.groupKey)
include hexact hdistinct

/-- Queries deliver the rows of each value, cut to as many as are attached. -/
theorem delivers_queries (j : ResolvedJoin) (t : Table) (sort : Option String) :
    j.Delivers (j.rowsOf t sort) values
      (values.flatMap fun v => takeAtMost (some j.cap) (j.rowsOf t sort v)) := by
  intro v hv
  have hagrees : ∀ w, ∀ item ∈ takeAtMost (some j.cap) (j.rowsOf t sort w),
      fieldAgrees j.foreignField w item = true :=
    fun w item hitem => fieldAgrees_of_mem_rowsOf (List.mem_of_mem_take hitem)
  rw [filter_flatMap_group hexact hdistinct hagrees hv]
  simp [takeAtMost, List.take_take]

/-- A batch get delivers all rows of each value. -/
theorem delivers_rows (j : ResolvedJoin) (t : Table) :
    j.Delivers (j.rowsOf t none) values
      (values.flatMap fun v => t.items.filter (fieldAgrees j.foreignField v)) := by
  intro v hv
  rw [filter_flatMap_group hexact hdistinct (fun w item hitem => (List.mem_filter.mp hitem).2) hv]
  rfl

/-- Scans deliver all rows of each value in storage order. -/
theorem delivers_scans (j : ResolvedJoin) (t : Table) :
    j.Delivers (j.rowsOf t none) values
      ((chunksOf maxBatchKeys values).flatMap fun chunk => t.items.filter fun item =>
        chunk.any fun v => fieldAgrees j.foreignField v item) := by
  intro v hv
  rw [filter_chunks_group hexact hdistinct (flatten_chunksOf _ _) t.items hv]
  rfl

end

/-- Whatever way is taken to several values, it delivers the rows of each. -/
theorem Targets.exists_fetch (h : j.Targets policy m t) (hkeys : t.keys = j.keys)
    {strategy : Strategy} {sort : Option String} (hlooks : j.Looks t strategy sort)
    {xs : List Value} (hexact : ∀ x ∈ xs, x.IsExact) :
    ∃ targets, Run.value m.answer (j.fetch policy (Value.distinct xs)
        (strategy.forValues (Value.distinct xs).length j.keys)) = .ok targets ∧
      j.Delivers (j.rowsOf t sort) (Value.distinct xs) targets := by
  have hvalues : ∀ v ∈ Value.distinct xs, v.IsExact := fun v hv =>
    hexact v (mem_of_mem_distinctBy hv)
  have hdistinct : (Value.distinct xs).Pairwise fun v w => v.groupKey ≠ w.groupKey :=
    pairwise_distinctBy xs
  cases hlooks with
  | primaryKey hpartition =>
    rw [Strategy.forValues]
    split
    · rename_i hbatch
      have hsort : t.keys.sort = none := by
        rw [hkeys]
        exact Option.isNone_iff_eq_none.mp hbatch.2
      have hattributes : t.keys.attributes = [j.foreignField] := by
        simp [KeySchema.attributes, hsort, hpartition]
      rw [hsort]
      exact ⟨_, h.value_batchGet hattributes xs, delivers_rows hvalues hdistinct j t⟩
    · exact ⟨_, h.value_queries (show t.sortAttribute none = _ from rfl) _,
        delivers_queries hvalues hdistinct j t _⟩
  | index hsort => exact ⟨_, h.value_queries hsort _, delivers_queries hvalues hdistinct j t _⟩
  | scan => exact ⟨_, h.value_scans _, delivers_scans hvalues hdistinct j t⟩

/-! ## Attaching -/

/-- What was found for the local value of a row; nothing for a row without one. -/
def sought (j : ResolvedJoin) (found : Value → List Item) (row : Item) : List Item :=
  match (Fields.get? row j.localField).filter fun v => !v.isNull with
  | some v => found v
  | none => []

theorem attachment_congr (hcap : j.relation = .oneToOne → j.cap = 1) {xs ys : List Item}
    (h : xs.take j.cap = ys.take j.cap) : j.attachment xs = j.attachment ys := by
  unfold attachment
  cases hrelation : j.relation with
  | oneToOne =>
    rw [hcap hrelation] at h
    have hhead : xs.head? = ys.head? := by
      simpa [List.head?_take] using congrArg List.head? h
    simp only [hhead]
  | oneToMany => simp only [h]

/-- A row's local value is in the group of a value that was looked up. -/
theorem exists_mem_distinctFieldValues {rows : List Item} {row : Item} (hrow : row ∈ rows)
    {field : String} {v : Value}
    (hv : (Fields.get? row field).filter (fun v => !v.isNull) = some v) :
    ∃ w ∈ distinctFieldValues field rows, w.groupKey = v.groupKey := by
  obtain ⟨hget, hnull⟩ := Option.filter_eq_some_iff.mp hv
  exact exists_mem_distinctBy (List.mem_filter.mpr ⟨List.mem_filterMap.mpr ⟨row, hrow, hget⟩, hnull⟩)

theorem asks_attach (j : ResolvedJoin) (policy : FetchPolicy) (strategy : Strategy)
    (rows : List Item) : Run.Asks Request.Reads (j.attach policy strategy rows) :=
  (Run.Asks.composes _).attach (j.asks_fetch policy _) strategy

/-- Every row gets what was found for its local value, whatever the other rows are. -/
theorem value_attach {strategy : Strategy} {rows targets : List Item} {found : Value → List Item}
    (hcap : j.relation = .oneToOne → j.cap = 1)
    (hfound : ∀ v w, v.groupKey = w.groupKey → found v = found w)
    (hfetch : Run.value m.answer (j.fetch policy (distinctFieldValues j.localField rows)
      (strategy.forValues (distinctFieldValues j.localField rows).length j.keys)) = .ok targets)
    (hdelivers : j.Delivers found (distinctFieldValues j.localField rows) targets) :
    Run.value m.answer (j.attach policy strategy rows) =
      .ok (rows.map fun row => Fields.insert row j.label (j.attachment (j.sought found row))) := by
  have hrow : ∀ targets, j.Delivers found (distinctFieldValues j.localField rows) targets →
      rows.map (j.attachTo targets) =
        rows.map fun row => Fields.insert row j.label (j.attachment (j.sought found row)) := by
    intro targets hdelivers
    refine List.map_congr_left fun row hrow => ?_
    unfold attachTo
    congr 1
    refine attachment_congr hcap ?_
    unfold partners sought Item.group?
    cases hv : (Fields.get? row j.localField).filter fun v => !v.isNull with
    | none => rfl
    | some v =>
      obtain ⟨w, hw, hgroup⟩ := exists_mem_distinctFieldValues hrow hv
      have hgroups := hdelivers w hw
      rw [hgroup, hfound w v hgroup] at hgroups
      exact hgroups
  unfold attach
  dsimp only
  split
  · rename_i hempty
    refine congrArg Except.ok (hrow [] ?_)
    rw [List.isEmpty_iff.mp hempty]
    exact fun v hv => by cases hv
  · rw [Run.value_bind, hfetch]
    exact congrArg Except.ok (hrow targets hdelivers)

end ResolvedJoin

end KeyedQuery
