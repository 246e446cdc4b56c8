import KeyedQuery.Plan.Rows
import KeyedQuery.Proofs.Fetch.Batch
import KeyedQuery.Proofs.Fetch.Pages

/-!
# Rows of a plan

Whatever strategy a plan has, it fetches the rows that its conditions keep, each of them once
(`Plan.ensures_fetch`). What is left to be tested in memory is tested afterwards, so that a plan for
whole rows ends with rows that satisfy its conditions, all of them unless it is limited
(`Plan.ensures_rows`).
-/

namespace KeyedQuery

variable {tables : Fields Table} {pageSize : Option Nat} {calm : Prop} {t : Table}
  {policy : FetchPolicy}

/-! ## Single requests -/

/-- A request collects the rows that it yields, up to a limit. -/
theorem Table.Yields.exists_collected {name : String} {q : PageRequest} {test passes : Item → Bool}
    (h : t.Yields name q test passes) (hpageSize : pageSize ≠ some 0) (hwell : t.WellKeyed)
    (ht : Fields.get? tables name = some t) :
    ∃ rows, rows.Perm (t.items.filter fun item => test item && passes item) ∧ ∀ limit,
      Run.Ensures Memory.receive (Memory.Holds tables pageSize calm) (policy.collect q limit)
        (fun items => items = takeAtMost limit rows)
        (policy.Tolerates calm policy.furtherPages (t.items.filter test).length) := by
  obtain ⟨rows, hanswers, hperm⟩ := h.answers
  refine ⟨rows.filter passes, ?_, fun limit => ?_⟩
  · have hfilter : (t.items.filter test).filter passes =
        t.items.filter fun item => test item && passes item := by
      rw [List.filter_filter]
      exact List.filter_congr fun item _ => Bool.and_comm _ _
    rw [← hfilter]
    exact hperm.filter passes
  · rw [← hperm.length_eq]
    exact (policy.ensures_collect limit hpageSize (hwell.keysApart.of_perm hperm) (h.table ▸ ht)
      hanswers h.countOnly h.limit h.start).imp (fun _ h => h.1) fun _ h => h.tolerates hpageSize

theorem FetchPolicy.Tolerates.mono {further rows rows' : Nat} {fault : Fault}
    (h : policy.Tolerates calm further rows fault) (hle : rows ≤ rows') :
    policy.Tolerates calm further rows' fault :=
  fun hcalm => ⟨(h hcalm).1, Nat.lt_of_lt_of_le (h hcalm).2 hle⟩

/-! ## Several requests -/

theorem takeAtMost_append (limit : Option Nat) (xs ys : List Item) :
    takeAtMost limit (xs ++ ys) =
      takeAtMost limit xs ++ takeAtMost (limit.map fun n => n - xs.length) ys := by
  cases limit with
  | none => rfl
  | some n => exact List.take_append

theorem takeAtMost_takeAtMost (limit : Option Nat) (xs : List Item) :
    takeAtMost limit (takeAtMost limit xs) = takeAtMost limit xs := by
  cases limit with
  | none => rfl
  | some n => simp [takeAtMost, List.take_take]

theorem takeAtMost_takeAtMost_append (limit : Option Nat) (xs ys : List Item) :
    takeAtMost limit (takeAtMost limit xs ++ ys) = takeAtMost limit (xs ++ ys) := by
  cases limit with
  | none => rfl
  | some n =>
    rcases Nat.le_total n xs.length with hle | hle
    · have hlength : n ≤ (xs.take n).length := by rw [List.length_take]; omega
      simp only [takeAtMost]
      rw [List.take_append_of_le_length hlength, List.take_append_of_le_length hle, List.take_take,
        Nat.min_self]
    · simp only [takeAtMost]
      rw [List.take_of_length_le hle]

/-- Requests in turn collect the rows that they collect by themselves, up to a common limit. -/
theorem ensures_collectInTurn {E : Fault → Prop} (limit : Option Nat) :
    ∀ {requests : List PageRequest} {parts : List (List Item)},
      List.Forall₂ (fun q rows => ∀ limit, Run.Ensures Memory.receive
        (Memory.Holds tables pageSize calm) (policy.collect q limit)
        (fun items => items = takeAtMost limit rows) E) requests parts →
      ∀ collected, takeAtMost limit collected = collected →
      Run.Ensures Memory.receive (Memory.Holds tables pageSize calm)
        (Plan.collectInTurn policy limit collected requests)
        (fun items => items = takeAtMost limit (collected ++ parts.flatten)) E
  | [], [], .nil, collected, hcollected => by
    rw [Plan.collectInTurn, List.flatten_nil, List.append_nil, hcollected]
    exact .pure rfl
  | q :: requests, rows :: parts, .cons hq hrest, collected, hcollected => by
    rw [Plan.collectInTurn]
    split
    · rename_i hreached
      refine .pure ?_
      rw [FetchPolicy.takeAtMost_of_reached hreached, hcollected]
    · refine (hq _).bind fun more hmore => ?_
      have hboth : collected ++ more = takeAtMost limit (collected ++ rows) := by
        rw [takeAtMost_append, hcollected, hmore]
      rw [hboth]
      refine (ensures_collectInTurn limit hrest _ (takeAtMost_takeAtMost _ _)).imp
        (fun items hitems => ?_) fun _ h => h
      rw [hitems, takeAtMost_takeAtMost_append, List.flatten_cons, List.append_assoc]

/-! ## Filtering -/

/-- Filtering covered rows leaves those that satisfy the conditions. -/
theorem Narrows.covers_filter {conditions : List NormalizedCondition} {exact once : Prop}
    {keep : Item → Bool} {rows items : List Item} (h : Narrows conditions exact keep)
    (hcovers : Covers rows items keep once) :
    Covers (rows.filter (matchesAll conditions)) items (matchesAll conditions) once where
  mem item := by
    rw [List.mem_filter, hcovers.mem]
    exact ⟨fun ⟨⟨hitem, _⟩, hall⟩ => ⟨hitem, hall⟩,
      fun ⟨hitem, hall⟩ => ⟨⟨hitem, h.of_matchesAll item hall⟩, hall⟩⟩
  perm honce := by
    rw [← h.filter_filter items]
    exact (hcovers.perm honce).filter _

namespace Plan

variable {p : Plan} {r : Resolver}

/-! ## Strategies -/

/-- Conditions that the store reads as they are read in memory: marked if it cannot evaluate them,
and no tests against null. -/
structure Regular (conditions : List NormalizedCondition) : Prop where
  marked : ∀ c ∈ conditions, c.IsMarked
  definite : ∀ c ∈ conditions, c.IsDefinite

/-- Memberships are in plain values only. -/
def PlainMembers (conditions : List NormalizedCondition) : Prop :=
  ∀ c ∈ conditions, c.operator = .isIn → ∀ xs, c.value = .list xs → ∀ x ∈ xs, x.IsPlain

/-- The table has the keys of a model and every index that is known of it. -/
structure Suits (t : Table) (r : Resolver) (model : String) (keys : KeySchema) : Prop where
  keys_eq : t.keys = keys
  indexes : ∀ field index, r.indexName model field = some index →
    (Fields.get? t.indexes index).isSome

theorem allNative_of_needsClientFilter {s : Strategy} {conditions : List NormalizedCondition}
    (h : needsClientFilter s conditions = false) : AllNative conditions := by
  simp only [needsClientFilter, Bool.or_eq_false_iff, List.any_eq_false] at h
  intro c hc
  exact ⟨by simpa using h.1.2 c hc, connector_eq_and (by simpa using h.1.1 c hc)⟩

/-- With any limit, the dialogue fetches rows that the conditions keep, and all of them if there is no
limit. A row is fetched once if memberships are plain. The conditions need not be tested again if no
client filter is needed. A single request has at most the given number of qualifying rows. -/
def Fetches (p : Plan) (policy : FetchPolicy) (tables : Fields Table) (pageSize : Option Nat)
    (calm : Prop) (t : Table) (qualifying : Nat) (fetch : Option Nat → Run (List Item)) : Prop :=
  ∃ keep rows, Narrows p.conditions
      (needsClientFilter p.directives.baseStrategy p.conditions = false) keep ∧
    Covers rows t.items keep (PlainMembers p.conditions) ∧ ∀ limit,
      Run.Ensures Memory.receive (Memory.Holds tables pageSize calm) (fetch limit)
        (fun items => items = takeAtMost limit rows ∨ items = rows)
        (policy.Tolerates calm policy.furtherPages qualifying)

theorem Fetches.of_narrows {qualifying : Nat} {keep : Item → Bool} {rows : List Item}
    {fetch : Option Nat → Run (List Item)}
    (hnarrows : Narrows p.conditions (AllNative p.conditions) keep)
    (hcovers : Covers rows t.items keep (PlainMembers p.conditions)) (hfetch : ∀ limit,
      Run.Ensures Memory.receive (Memory.Holds tables pageSize calm) (fetch limit)
        (fun items => items = takeAtMost limit rows)
        (policy.Tolerates calm policy.furtherPages qualifying)) :
    p.Fetches policy tables pageSize calm t qualifying fetch :=
  ⟨keep, rows, ⟨hnarrows.of_matchesAll, fun h =>
      hnarrows.eq_matchesAll (allNative_of_needsClientFilter h)⟩, hcovers,
    fun limit => (hfetch limit).imp (fun _ h => .inl h) fun _ h => h⟩

theorem Fetches.mono {n n' : Nat} {fetch : Option Nat → Run (List Item)}
    (h : p.Fetches policy tables pageSize calm t n fetch) (hle : n ≤ n') :
    p.Fetches policy tables pageSize calm t n' fetch := by
  obtain ⟨keep, rows, hnarrows, hcovers, hfetch⟩ := h
  exact ⟨keep, rows, hnarrows, hcovers, fun limit =>
    (hfetch limit).imp (fun _ h => h) fun _ h => h.mono hle⟩

/-- The query of a key match has as many qualifying rows as the conditions that it uses leave. -/
theorem fetches_keyQuery (hpageSize : pageSize ≠ some 0) (hwell : t.WellKeyed)
    (ht : Fields.get? tables p.table = some t) (hsuits : Suits t r p.model p.keys)
    (hregular : Regular p.conditions) {m : KeyMatch} (hmatch : p.keyMatch = some m)
    (hserves : m.Serves r p.model p.conditions) :
    ∃ used, Splits p.conditions used (m.remaining p.conditions) ∧
      p.Fetches policy tables pageSize calm t (t.items.filter (allHold used)).length
        fun limit => (do
          let request ← Run.ofExcept p.keyQuery
          policy.collect request limit) := by
  obtain ⟨hfits, hindex⟩ := hserves
  obtain ⟨q, used, hq, hsplits, hyields⟩ := exists_keyQuery (t := t) hmatch hfits
    (fun name hname => by
      obtain ⟨field, hfield⟩ := hindex name hname
      exact hsuits.indexes field name hfield) hregular.marked hregular.definite
  obtain ⟨rows, hperm, hcollect⟩ := hyields.exists_collected hpageSize hwell ht
  refine ⟨used, hsplits, .of_narrows hsplits.narrows (.of_perm hperm) fun limit => ?_⟩
  rw [hq]
  exact .bind (.ofExcept (fun a ha => (Except.ok.inj ha).symm) fun fault hfault => by cases hfault)
    fun a ha => ha ▸ hcollect limit

theorem fetches_scan (hpageSize : pageSize ≠ some 0) (hwell : t.WellKeyed)
    (ht : Fields.get? tables p.table = some t) (hregular : Regular p.conditions) :
    p.Fetches policy tables pageSize calm t t.items.length (policy.collect p.scanRequest) := by
  obtain ⟨rows, hperm, hcollect⟩ := (yields_scanRequest (t := t) hregular.marked
    hregular.definite).exists_collected hpageSize hwell ht
  have hsplits : Splits p.conditions [] p.conditions := ⟨by simp, by simp⟩
  exact (Fetches.of_narrows hsplits.narrows (.of_perm hperm) hcollect).mono
    (List.length_filter_le _ _)

/-- Every value of a membership reaches its rows, and all values together those of the
membership. -/
theorem fetches_valueQueries (hpageSize : pageSize ≠ some 0) (hwell : t.WellKeyed)
    (ht : Fields.get? tables p.table = some t) (hregular : Regular p.conditions)
    {index field : String} (hindex : (Fields.get? t.indexes index).isSome) {m : Membership}
    (hm : Membership.find? p.conditions field = some m) :
    p.Fetches policy tables pageSize calm t t.items.length fun limit => (do
      let requests ← Run.ofExcept (p.valueQueries index field)
      collectInTurn policy limit [] requests) := by
  obtain ⟨c, xs, hc, hsplits, rfl, hop, hvalue, hvalues⟩ := Membership.of_find? hm
  have hparts : ∀ v, ∃ rows, rows.Perm (t.items.filter fun item =>
      fieldAgrees c.field v item && filterPasses m.remaining item) ∧ ∀ limit,
      Run.Ensures Memory.receive (Memory.Holds tables pageSize calm)
        (policy.collect (p.valueQuery index c.field m.remaining v) limit)
        (fun items => items = takeAtMost limit rows)
        (policy.Tolerates calm policy.furtherPages t.items.length) := by
    intro v
    obtain ⟨rows, hperm, hcollect⟩ := (yields_valueQuery v hindex
      (hsplits.forall_remaining hregular.marked)
      (hsplits.forall_remaining hregular.definite)).exists_collected hpageSize hwell ht
    exact ⟨rows, hperm, fun limit => (hcollect limit).imp (fun _ h => h) fun _ h =>
      h.mono (List.length_filter_le _ _)⟩
  choose part hpart hcollect using hparts
  have hcovers : Covers ((m.values.map part).flatten) t.items
      (fun item => allHold [c] item && filterPasses m.remaining item)
      (PlainMembers p.conditions) := by
    have hkeep : (fun item => allHold [c] item && filterPasses m.remaining item) = fun item =>
        m.values.any fun v => fieldAgrees c.field v item && filterPasses m.remaining item := by
      funext item
      have hall : allHold [c] item = c.holds item := by simp [allHold]
      rw [hall, holds_membership hop hvalue, hvalues]
      cases filterPasses m.remaining item <;> simp
    have hperm : (m.values.flatMap part).Perm (m.values.flatMap fun v => t.items.filter fun item =>
        fieldAgrees c.field v item && filterPasses m.remaining item) :=
      List.Perm.flatMap_left _ fun v _ => hpart v
    rw [← List.flatMap_def, hkeep]
    refine .trans (covers_flatMap_filter fun hplain => ?_) hperm
    rw [hvalues]
    refine (pairwise_fieldAgrees (fun x hx => (hplain c hc hop xs hvalue x hx).isExact) c.field).imp
      fun {v w} hvw item hitem => ?_
    rw [hvw item (Bool.and_eq_true _ _ ▸ hitem).1, Bool.false_and]
  refine .of_narrows hsplits.narrows hcovers fun limit => ?_
  have hrequests : p.valueQueries index c.field =
      .ok (m.values.map (p.valueQuery index c.field m.remaining)) := by
    rw [valueQueries, hm]
  rw [hrequests]
  refine .bind (.ofExcept (fun a ha => (Except.ok.inj ha).symm) fun fault hfault => by cases hfault)
    fun a ha => ?_
  rw [ha]
  refine ensures_collectInTurn limit ?_ [] (by cases limit <;> simp [takeAtMost])
  rw [List.forall₂_map_left_iff, List.forall₂_map_right_iff, List.forall₂_same]
  exact fun v _ => hcollect v

/-- A batch get fetches the rows of a membership on the partition attribute. What other conditions
there are has to be tested in memory. -/
theorem fetches_batchGet (hwell : t.WellKeyed) (ht : Fields.get? tables p.table = some t)
    (hkeys : t.keys = p.keys) (hstrategy : p.directives.baseStrategy = .batchGet)
    (hsimple : p.keys.isSimple = true)
    {m : Membership} (hm : Membership.find? p.conditions p.keys.partition = some m) :
    p.Fetches policy tables pageSize calm t t.items.length fun _ => (do
      let values ← Run.ofExcept p.partitionValues
      let items ← policy.retry.batchGet p.table (values.map fun v => [(p.keys.partition, v)])
      pure (inOrderOf p.keys.partition values items)) := by
  obtain ⟨c, xs, hc, hsplits, hfield, hop, hvalue, hvalues⟩ := Membership.of_find? hm
  have hattributes : t.keys.attributes = [p.keys.partition] := by
    rw [KeySchema.isSimple, Option.isNone_iff_eq_none] at hsimple
    simp [hkeys, KeySchema.attributes, hsimple]
  have hrows := hwell.covers_filterMap_find? hattributes xs
  have hkeep : (fun item => (Value.distinct xs).any fun v => fieldAgrees p.keys.partition v item) =
      c.holds := funext fun item => by rw [holds_membership hop hvalue, hfield]
  rw [hkeep, ← hvalues] at hrows
  have hordered : Covers (inOrderOf p.keys.partition m.values _) t.items c.holds
      (PlainMembers p.conditions) :=
    .trans ⟨hrows.mem, fun hplain => hrows.perm (hplain c hc hop xs hvalue)⟩ (stableSort_perm _ _)
  refine ⟨c.holds, _, ⟨fun item hall => ?_, fun hexact item => ?_⟩, hordered, fun limit => ?_⟩
  · exact holds_of_matchesAll hall hc (hsplits.required c List.mem_cons_self)
  · have hnative := allNative_of_needsClientFilter hexact
    have hlength : p.conditions.length ≤ 1 := by
      simp only [needsClientFilter, hstrategy, decide_true, Bool.true_and, Bool.or_eq_false_iff,
        decide_eq_false_iff_not] at hexact
      omega
    obtain ⟨d, hd⟩ : ∃ d, p.conditions = [d] :=
      List.length_eq_one_iff.mp (Nat.le_antisymm hlength (List.length_pos_of_mem hc))
    rw [matchesAll_eq_allHold fun c hc => (hnative c hc).2, hd]
    rw [hd, List.mem_singleton] at hc
    simp [allHold, hc]
  · have hpartition : p.partitionValues = .ok m.values := by rw [partitionValues, hm]
    rw [hpartition]
    refine .bind (.ofExcept (fun a ha => (Except.ok.inj ha).symm)
      fun fault hfault => by cases hfault) fun a ha => ?_
    subst ha
    refine ((policy.retry.ensures_batchGet _ ht).imp (fun _ h => h) fun fault hcalm h =>
      absurd h hcalm).bind fun items hitems => .pure (.inr ?_)
    rw [hitems]

/-- Whatever strategy the plan has, it fetches what its conditions keep. -/
theorem fetches_fetch (hpageSize : pageSize ≠ some 0) (hwell : t.WellKeyed)
    (ht : Fields.get? tables p.table = some t) (hsuits : Suits t r p.model p.keys)
    (hrests : p.directives.baseStrategy.Rests r p.model p.keys p.conditions p.keyMatch)
    (hregular : Regular p.conditions) :
    p.Fetches policy tables pageSize calm t t.items.length (p.fetch policy) := by
  have hkey : (∃ m, p.keyMatch = some m ∧ m.Serves r p.model p.conditions) →
      p.Fetches policy tables pageSize calm t t.items.length fun limit => (do
        let request ← Run.ofExcept p.keyQuery
        policy.collect request limit) := by
    rintro ⟨m, hmatch, hserves⟩
    obtain ⟨used, -, hfetches⟩ := fetches_keyQuery hpageSize hwell ht hsuits hregular hmatch hserves
    exact hfetches.mono (List.length_filter_le _ _)
  unfold fetch
  split
  case h_1 hstrategy =>
    rw [hstrategy] at hrests
    exact hkey hrests
  case h_2 index hstrategy =>
    rw [hstrategy] at hrests
    exact hkey hrests
  case h_3 index field hstrategy =>
    rw [hstrategy] at hrests
    obtain ⟨⟨name, hname⟩, m, hm⟩ := hrests
    exact fetches_valueQueries hpageSize hwell ht hregular (hsuits.indexes name index hname) hm
  case h_4 hstrategy =>
    rw [hstrategy] at hrests
    obtain ⟨hsimple, m, hm⟩ := hrests
    exact fetches_batchGet hwell ht hsuits.keys_eq hstrategy hsimple hm
  case h_5 hstrategy => exact fetches_scan hpageSize hwell ht hregular

/-! ## Whole rows -/

theorem addSizes_zero {n : Nat} (h : n ≤ maxSize) : addSizes n 0 = n := by
  rw [addSizes, Nat.add_zero]
  exact Nat.min_eq_left h

/-- A fetch may stop at the limit only if every fetched row satisfies the conditions, so testing them
in memory after it leaves the same rows. -/
theorem IsPlain.takeAtMost_filterRows {q : FindQuery} {table : String} {keys : KeySchema}
    {conditions : List NormalizedCondition} (hp : p.IsPlain q table keys conditions)
    (hlimit : ∀ n, q.limit = some n → n ≤ maxSize) {rows fetched : List Item}
    (hexact : needsClientFilter p.directives.baseStrategy p.conditions = false →
      rows.filter (matchesAll conditions) = rows)
    (hfetched : fetched = takeAtMost p.directives.fetchLimit rows ∨ fetched = rows) :
    takeAtMost q.limit (p.filterRows fetched) =
      takeAtMost q.limit (rows.filter (matchesAll conditions)) := by
  rw [hp.fetchLimit] at hfetched
  rw [filterRows]
  cases hclient : p.directives.clientFilter with
  | true =>
    rw [hclient] at hfetched
    obtain rfl : fetched = rows := or_self_iff.mp hfetched
    rw [if_pos rfl, keepMatching, hp.conditions]
  | false =>
    rw [hclient, if_neg (by decide), hp.limit] at hfetched
    have hfetchLimit : (q.limit.map fun n => addSizes n 0) = q.limit := by
      cases hq : q.limit with
      | none => rfl
      | some n => rw [Option.map_some, addSizes_zero (hlimit n hq)]
    rw [if_neg (by decide), hexact (hp.clientFilter ▸ hclient)]
    rw [hfetchLimit] at hfetched
    rcases hfetched with rfl | rfl
    · exact takeAtMost_takeAtMost _ _
    · rfl

/-- A plan for whole rows ends with the rows that satisfy its conditions, each of them once and as
many as the query is limited to. -/
theorem IsPlain.ensures_rows {q : FindQuery} {table : String} {keys : KeySchema}
    {conditions : List NormalizedCondition} (hp : p.IsPlain q table keys conditions)
    {qualifying : Nat} (hfetches : p.Fetches policy tables pageSize calm t qualifying (p.fetch policy))
    (hlimit : ∀ n, q.limit = some n → n ≤ maxSize) :
    ∃ rows, Covers rows t.items (matchesAll conditions) (PlainMembers conditions) ∧
      Run.Ensures Memory.receive (Memory.Holds tables pageSize calm) (p.rows policy)
        (fun items => items = takeAtMost q.limit rows)
        (policy.Tolerates calm policy.furtherPages qualifying) := by
  obtain ⟨keep, rows, hnarrows, hcovers, hfetch⟩ := hfetches
  refine ⟨rows.filter (matchesAll conditions), ?_, ?_⟩
  · rw [← hp.conditions]
    exact hnarrows.covers_filter hcovers
  have hexact : needsClientFilter p.directives.baseStrategy p.conditions = false →
      rows.filter (matchesAll conditions) = rows := fun hclient =>
    List.filter_eq_self.mpr fun item hitem => by
      rw [← hp.conditions, ← hnarrows.eq_matchesAll hclient item]
      exact ((hcovers.mem item).mp hitem).2
  unfold Plan.rows
  refine (hfetch _).bind fun fetched hfetched => ?_
  have hwindow : p.selectRows (cutWindow p.offset p.limit (p.sortRows (p.filterRows fetched))) =
      takeAtMost q.limit (rows.filter (matchesAll conditions)) := by
    rw [selectRows, hp.select, sortRows, hp.sort, cutWindow, hp.offset, hp.limit, List.drop_zero]
    exact hp.takeAtMost_filterRows hlimit hexact hfetched
  have hjoins : p.joins.zip p.directives.joinStrategies = [] := by rw [hp.joins, List.zip_nil_left]
  have hrest : Run.Ensures Memory.receive (Memory.Holds tables pageSize calm) (do
      let joined ← joinRows policy (p.joins.zip p.directives.joinStrategies)
        (p.selectRows (cutWindow p.offset p.limit (p.sortRows (p.filterRows fetched))))
      Run.count .finds 1
      pure joined)
      (fun items => items = takeAtMost q.limit (rows.filter (matchesAll conditions)))
      (policy.Tolerates calm policy.furtherPages qualifying) := by
    rw [hwindow, hjoins, joinRows]
    exact Run.Ensures.bind (.pure (Q := fun joined => joined = _) rfl) fun joined hjoined =>
      Run.Ensures.count.bind fun _ _ => .pure hjoined
  dsimp only
  split
  · exact Run.Ensures.count.bind fun _ _ => hrest
  · exact hrest

end Plan

end KeyedQuery
