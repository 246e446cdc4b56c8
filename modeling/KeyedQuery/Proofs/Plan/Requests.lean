import KeyedQuery.Proofs.Plan.Strategy
import KeyedQuery.Proofs.Plan.Texts
import KeyedQuery.Proofs.Store.Pages

/-!
# What the requests of a plan yield

Which rows qualify for the requests of a plan, and which of them pass the filter: those of the scan
(`Plan.yields_scanRequest`), of the query of a key match (`Plan.exists_keyQuery`), and of the queries
of a membership, one for each of its values (`Plan.yields_valueQuery`).
-/

namespace KeyedQuery

open Placeholders

variable {t : Table} {conditions : List NormalizedCondition}

/-! ## Used and remaining conditions -/

theorem mem_keepPositions {α : Type} {keep : Nat → Bool} {xs : List α} {x : α} :
    x ∈ keepPositions keep xs ↔ ∃ i, xs[i]? = some x ∧ keep i = true := by
  rw [keepPositions, List.mem_filterMap]
  constructor
  · rintro ⟨kept, hkept, rfl⟩
    obtain ⟨i, hi, hx⟩ := List.mem_mapIdx.mp hkept
    split at hx
    · rename_i hkeep
      exact ⟨i, by rw [List.getElem?_eq_getElem hi]; exact hx, hkeep⟩
    · cases hx
  · rintro ⟨i, hi, hkeep⟩
    obtain ⟨hlt, rfl⟩ := List.getElem?_eq_some_iff.mp hi
    exact ⟨_, List.mem_mapIdx.mpr ⟨i, hlt, if_pos hkeep⟩, rfl⟩

/-- The conditions at some positions and those at all others are all of them. -/
theorem splits_keepPositions {used : List NormalizedCondition} {keep : Nat → Bool}
    (hused : ∀ c, c ∈ used ↔ ∃ i, conditions[i]? = some c ∧ keep i = false)
    (hrequired : ∀ c ∈ used, c.connector = .and) :
    Splits conditions used (keepPositions keep conditions) where
  mem c := by
    rw [hused, mem_keepPositions, List.mem_iff_getElem?]
    constructor
    · rintro ⟨i, hi⟩
      cases hkeep : keep i with
      | false => exact .inl ⟨i, hi, hkeep⟩
      | true => exact .inr ⟨i, hi, hkeep⟩
    · rintro (⟨i, hi, -⟩ | ⟨i, hi, -⟩) <;> exact ⟨i, hi⟩
  required := hrequired

theorem NormalizedCondition.isKeyEquality_iff {c : NormalizedCondition} :
    c.isKeyEquality = true ↔ c.connector = .and ∧ c.operator = .eq := by
  simp [isKeyEquality]

/-- The test that the text of an equality reads as. -/
def NormalizedCondition.comparison (c : NormalizedCondition) : Predicate :=
  .compare [.key c.field] .eq c.value

theorem writes_partitionCondition (field : String) (v : Value) :
    Writes (partitionCondition field v) fun r text =>
      TestReads r.attributes 5 text (.compare [.key field] .eq v) := by
  refine (writes_name field).bind fun name => (writes_value v).bind fun token => ?_
  refine Writes.pure fun r hv hname => ?_
  have hsign : Token.Closes (" " ++ "=" ++ " ") [.comparator .eq] := Token.closes_of_stepAll rfl
  have hreads := testReads_comparison hname hv hsign
  simp only [String.append_assoc] at hreads ⊢
  exact hreads.mono (by decide)

/-- The attribute agrees with the value. -/
def fieldAgrees (field : String) (v : Value) (item : Item) : Bool :=
  (Fields.get? item field).any fun w => w.agrees v

theorem holds_equality (field : String) (v : Value) (item : Item) :
    (Predicate.compare [.key field] .eq v).holds item = fieldAgrees field v item := by
  rw [Predicate.holds, follow?_key, fieldAgrees]
  cases Fields.get? item field <;> rfl

theorem textMeans_equality {a : Attributes} {text field : String} {v : Value}
    (h : TestReads a 5 text (.compare [.key field] .eq v)) :
    TextMeans a text (fieldAgrees field v) := by
  have hparse := parse_conjunction (.cons h .nil)
  rw [String.intercalate_singleton] at hparse
  exact ⟨_, hparse, holds_equality field v⟩

theorem holds_eq_fieldAgrees {c : NormalizedCondition} (hc : c.isKeyEquality = true)
    (hdefinite : c.IsDefinite) (item : Item) : c.holds item = fieldAgrees c.field c.value item := by
  have heq := (NormalizedCondition.isKeyEquality_iff.mp hc).2
  rw [NormalizedCondition.holds, heq, fieldAgrees]
  cases Fields.get? item c.field with
  | none => exact hdefinite (.inl heq)
  | some v => rfl

namespace KeyMatch

variable {m : KeyMatch}

/-- The conditions that a match uses. -/
def used (m : KeyMatch) (conditions : List NormalizedCondition) : List NormalizedCondition :=
  (m.partition :: m.sort.toList).filterMap fun i => conditions[i]?

/-- The row agrees with the equalities that a match uses. -/
def admits (m : KeyMatch) (conditions : List NormalizedCondition) (item : Item) : Bool :=
  (m.used conditions).all fun c => fieldAgrees c.field c.value item

theorem Fits.isKeyEquality_of_mem (h : m.Fits conditions) {c : NormalizedCondition}
    (hc : c ∈ m.used conditions) : c ∈ conditions ∧ c.isKeyEquality = true := by
  obtain ⟨i, hi, hci⟩ := List.mem_filterMap.mp hc
  refine ⟨List.mem_of_getElem? hci, ?_⟩
  rcases List.mem_cons.mp hi with rfl | hi
  · obtain ⟨p, hp, hkey⟩ := h.partition
    exact Option.some.inj (hp.symm.trans hci) ▸ hkey
  · obtain ⟨s, hs, hkey⟩ := h.sort i (Option.mem_toList.mp hi)
    exact Option.some.inj (hs.symm.trans hci) ▸ hkey

/-- The conditions are those that a match uses, and the others. -/
theorem Fits.splits (h : m.Fits conditions) :
    Splits conditions (m.used conditions) (m.remaining conditions) := by
  refine splits_keepPositions (fun c => ?_) fun c hc =>
    (NormalizedCondition.isKeyEquality_iff.mp (h.isKeyEquality_of_mem hc).2).1
  rw [used, List.mem_filterMap]
  refine exists_congr fun i => ?_
  rw [and_comm, List.mem_cons, Option.mem_toList, decide_eq_false_iff_not,
    Decidable.not_and_iff_or_not, not_not, not_not, eq_comm (a := m.sort)]

theorem Fits.admits_eq (h : m.Fits conditions) (hdefinite : ∀ c ∈ conditions, c.IsDefinite) :
    m.admits conditions = allHold (m.used conditions) := by
  funext item
  have hsame : ∀ c ∈ m.used conditions, c.holds item = fieldAgrees c.field c.value item := by
    intro c hc
    obtain ⟨hmem, hkey⟩ := h.isKeyEquality_of_mem hc
    exact holds_eq_fieldAgrees hkey (hdefinite c hmem) item
  rw [Bool.eq_iff_iff, admits, allHold, List.all_eq_true, List.all_eq_true]
  exact forall₂_congr fun c hc => by rw [hsame c hc]

/-- The text of a match reads as the conjunction of the equalities that it uses. -/
theorem Fits.writes_comparisons (h : m.Fits conditions) :
    Writes (m.expression? conditions) fun r text => ∃ expression first others,
      text = some expression ∧
      (m.used conditions).map NormalizedCondition.comparison = first :: others ∧
      Predicate.parse r.attributes expression = .ok (first.conjunction others) := by
  obtain ⟨p, hp, -⟩ := h.partition
  unfold expression?
  cases hsort : m.sort with
  | none =>
    rw [hp]
    refine (writes_partitionCondition p.field p.value).map fun r text htext => ?_
    have hparse := parse_conjunction (.cons htext .nil)
    rw [String.intercalate_singleton] at hparse
    exact ⟨text, p.comparison, [], rfl, by simp [used, hsort, hp], hparse⟩
  | some i =>
    obtain ⟨s, hs, -⟩ := h.sort i hsort
    rw [hp, Option.map_some, hs]
    refine (writes_partitionCondition p.field p.value).bind fun first => ?_
    refine (writes_partitionCondition s.field s.value).bind fun second => ?_
    refine Writes.pure fun r hsecond hfirst => ?_
    have hparse := parse_conjunction (.cons hfirst (.cons hsecond .nil))
    rw [String.intercalate_cons_cons, String.intercalate_singleton] at hparse
    exact ⟨_, p.comparison, [s.comparison], rfl, by simp [used, hsort, hp, hs], hparse⟩

/-- The text of a match means the equalities that it uses. -/
theorem Fits.writes_expression? (h : m.Fits conditions) :
    Writes (m.expression? conditions) fun r text => ∃ expression, text = some expression ∧
      TextMeans r.attributes expression (m.admits conditions) := by
  refine h.writes_comparisons.imp fun r text htext => ?_
  obtain ⟨expression, first, others, rfl, hused, hparse⟩ := htext
  refine ⟨expression, rfl, _, hparse, fun item => ?_⟩
  rw [Predicate.holds_conjunction, ← hused, List.all_map, admits]
  exact List.all_congr rfl fun c => holds_equality c.field c.value item

end KeyMatch

/-! ## Memberships -/

theorem textMeans_membership {a : Attributes} {text field : String} {vs : List Value}
    (h : TestReads a 5 text (.isIn [.key field] vs)) :
    TextMeans a text fun item => vs.any fun v => fieldAgrees field v item := by
  have hparse := parse_conjunction (.cons h .nil)
  rw [String.intercalate_singleton] at hparse
  refine ⟨_, hparse, fun item => ?_⟩
  show (Predicate.isIn [.key field] vs).holds item = _
  unfold fieldAgrees
  dsimp only
  rw [Predicate.holds, follow?_key]
  cases Fields.get? item field <;> simp

/-- A membership that is found is a required one, and its values are the distinct elements of the
list. -/
theorem Membership.of_find? {field : String} {m : Membership}
    (h : find? conditions field = some m) :
    ∃ c xs, c ∈ conditions ∧ Splits conditions [c] m.remaining ∧ c.field = field ∧
      c.operator = .isIn ∧ c.value = .list xs ∧ m.values = Value.distinct xs := by
  obtain ⟨i, hi, hrest⟩ := Option.bind_eq_some_iff.mp h
  obtain ⟨c, hc, hm⟩ := Option.bind_eq_some_iff.mp hrest
  obtain rfl := Option.some.inj hm
  obtain ⟨hlt, hci, -⟩ := List.findIdx?_eq_some_iff_getElem.mp hi
  obtain rfl := Option.some.inj ((List.getElem?_eq_getElem hlt).symm.trans hc)
  simp only [NormalizedCondition.isKeyMembership, Bool.decide_and, Bool.decide_eq_true,
    Bool.and_eq_true, decide_eq_true_eq] at hci
  obtain ⟨⟨hand, hin, hlist⟩, hfield⟩ := hci
  obtain ⟨xs, hxs⟩ : ∃ xs, (conditions[i]).value = .list xs := by
    cases hv : (conditions[i]).value with
    | list xs => exact ⟨xs, rfl⟩
    | _ => simp [hv, Value.isList] at hlist
  refine ⟨conditions[i], xs, List.getElem_mem hlt, splits_keepPositions (fun d => ?_) (fun d hd => ?_),
    hfield, hin, hxs, ?_⟩
  · rw [List.mem_singleton]
    constructor
    · rintro rfl
      exact ⟨i, hc, by simp⟩
    · rintro ⟨j, hj, hkeep⟩
      obtain rfl : j = i := by simpa using hkeep
      exact Option.some.inj (hj.symm.trans hc)
  · obtain rfl := List.mem_singleton.mp hd
    exact hand
  · rw [hxs]
    rfl

/-! ## Requests -/

namespace Table

/-- The request starts at the beginning of a table. The rows for which the test holds qualify, and
of them those pass that pass its filter. -/
structure Yields (t : Table) (name : String) (q : PageRequest) (test passes : Item → Bool) :
    Prop where
  table : q.table = name
  limit : q.limit = none
  start : q.start = none
  countOnly : q.countOnly = false
  answers : ∃ rows, t.Answers q rows passes ∧ rows.Perm (t.items.filter test)

theorem exists_sortAttribute {index : Option String}
    (hindex : ∀ name, index = some name → (Fields.get? t.indexes name).isSome) :
    ∃ sort, t.sortAttribute index = .ok sort := by
  cases index with
  | none => exact ⟨_, rfl⟩
  | some name =>
    obtain ⟨keys, hkeys⟩ := Option.isSome_iff_exists.mp (hindex name rfl)
    exact ⟨keys.sort, by simp [sortAttribute, hkeys]⟩

theorem exists_candidates {q : PageRequest} {index : Option String} {text : String}
    {forward : Bool} {test : Item → Bool} (haccess : q.access = .query index text forward)
    (hindex : ∀ name, index = some name → (Fields.get? t.indexes name).isSome)
    (htext : TextMeans q.attributes text test) :
    ∃ rows, t.candidates q = .ok rows ∧ rows.Perm (t.items.filter test) := by
  obtain ⟨sort, hsort⟩ := exists_sortAttribute hindex
  obtain ⟨p, hp, hholds⟩ := htext
  obtain rfl : test = p.holds := funext fun item => (hholds item).symm
  refine ⟨_, candidates_query haccess hsort hp, ?_⟩
  split
  · exact arrange_perm sort _
  · exact (List.reverse_perm _).trans (arrange_perm sort _)

/-- The rows for which its key condition holds qualify for a query. -/
theorem yields_query {name text : String} {index filter : Option String} {a : Attributes}
    {test passes : Item → Bool} (forward : Bool)
    (hindex : ∀ name, index = some name → (Fields.get? t.indexes name).isSome)
    (htext : TextMeans a text test) (hfilter : FilterMeans a filter passes) :
    t.Yields name { table := name, access := .query index text forward, filter, attributes := a }
      test passes where
  table := rfl
  limit := rfl
  start := rfl
  countOnly := rfl
  answers := by
    obtain ⟨rows, hrows, hperm⟩ := exists_candidates (t := t)
      (q := { table := name, access := .query index text forward, filter, attributes := a })
      rfl hindex htext
    exact ⟨rows, ⟨hrows, hfilter⟩, hperm⟩

end Table

theorem Splits.forall_remaining {used remaining : List NormalizedCondition}
    (h : Splits conditions used remaining) {P : NormalizedCondition → Prop}
    (hall : ∀ c ∈ conditions, P c) : ∀ c ∈ remaining, P c :=
  fun c hc => hall c ((h.mem c).mpr (.inr hc))

namespace Plan

variable {p : Plan}

theorem yields_scanRequest (hmarked : ∀ c ∈ p.conditions, c.IsMarked)
    (hdefinite : ∀ c ∈ p.conditions, c.IsDefinite) :
    t.Yields p.table p.scanRequest (allHold []) (filterPasses p.conditions) where
  table := rfl
  limit := rfl
  start := rfl
  countOnly := rfl
  answers :=
    ⟨t.items, ⟨rfl, (writes_filter hmarked hdefinite).run⟩,
      .of_eq (List.filter_true t.items).symm⟩

/-- The query of a key match is for the rows that agree with the equalities that it uses. -/
theorem keyQuery_eq {m : KeyMatch} (hmatch : p.keyMatch = some m) (hfits : m.Fits p.conditions)
    (hmarked : ∀ c ∈ p.conditions, c.IsMarked) : ∃ text filter a passes,
      p.keyQuery = .ok
        { table := p.table
          access := .query m.index text (p.directives.serverSort ≠ some .desc)
          filter
          attributes := a } ∧
      TextMeans a text (m.admits p.conditions) ∧ FilterMeans a filter passes ∧
      ((∀ c ∈ p.conditions, c.IsDefinite) → passes = filterPasses (m.remaining p.conditions)) := by
  have hwrites : Writes (p.matchTexts? m) fun r texts => ∃ text filter passes,
      texts = some (⟨m.index, text, m.remaining p.conditions⟩, filter) ∧
        TextMeans r.attributes text (m.admits p.conditions) ∧
        FilterMeans r.attributes filter passes ∧
        ((∀ c ∈ p.conditions, c.IsDefinite) → passes = filterPasses (m.remaining p.conditions)) := by
    unfold matchTexts? KeyMatch.keyCondition?
    simp only [bind_assoc, pure_bind]
    refine hfits.writes_expression?.bind fun text => ?_
    cases text with
    | none => exact Writes.pure fun r hnone => by simp at hnone
    | some text =>
      refine (writes_filter_of_marked (hfits.splits.forall_remaining hmarked)).bind fun filter =>
        Writes.pure fun r hfilter htext => ?_
      obtain ⟨expression, hexpression, hmeans⟩ := htext
      obtain rfl := Option.some.inj hexpression
      obtain ⟨passes, hfilter, hpasses⟩ := hfilter
      exact ⟨text, filter, passes, rfl, hmeans, hfilter, fun hdefinite =>
        hpasses (hfits.splits.forall_remaining hdefinite)⟩
  have hwritten := hwrites.run
  generalize hrun : p.matchTexts? m {} = written at hwritten
  obtain ⟨texts, tokens⟩ := written
  obtain ⟨text, filter, passes, htexts, hmeans⟩ := hwritten
  obtain rfl : texts = _ := htexts
  refine ⟨text, filter, tokens.attributes, passes, ?_, hmeans⟩
  unfold keyQuery
  rw [hmatch, Option.map_some, StateT.run, hrun]

/-- A key match that fits has a query for the rows that satisfy the conditions that it uses. -/
theorem exists_keyQuery {m : KeyMatch} (hmatch : p.keyMatch = some m) (hfits : m.Fits p.conditions)
    (hindex : ∀ name, m.index = some name → (Fields.get? t.indexes name).isSome)
    (hmarked : ∀ c ∈ p.conditions, c.IsMarked) (hdefinite : ∀ c ∈ p.conditions, c.IsDefinite) :
    ∃ q used, p.keyQuery = .ok q ∧ Splits p.conditions used (m.remaining p.conditions) ∧
      t.Yields p.table q (allHold used) (filterPasses (m.remaining p.conditions)) := by
  obtain ⟨text, filter, a, passes, hquery, htext, hfilter, hpasses⟩ :=
    keyQuery_eq hmatch hfits hmarked
  rw [hpasses hdefinite] at hfilter
  rw [hfits.admits_eq hdefinite] at htext
  exact ⟨_, _, hquery, hfits.splits, Table.yields_query _ hindex htext hfilter⟩

/-- The rows whose attribute agrees with a value qualify for the query for it. -/
theorem yields_valueQuery {index field : String} {remaining : List NormalizedCondition} (v : Value)
    (hindex : (Fields.get? t.indexes index).isSome) (hmarked : ∀ c ∈ remaining, c.IsMarked)
    (hdefinite : ∀ c ∈ remaining, c.IsDefinite) :
    t.Yields p.table (p.valueQuery index field remaining v) (fieldAgrees field v)
      (filterPasses remaining) := by
  have hwrites : Writes (do
      let keyCondition ← partitionCondition field v
      let filter ← filterExpression? remaining
      pure (keyCondition, filter)) fun r texts =>
        TextMeans r.attributes texts.1 (fieldAgrees field v) ∧
          FilterMeans r.attributes texts.2 (filterPasses remaining) := by
    refine (writes_partitionCondition field v).bind fun text => ?_
    refine (writes_filter hmarked hdefinite).bind fun filter => ?_
    exact Writes.pure fun r hfilter htext => ⟨textMeans_equality htext, hfilter⟩
  refine Table.yields_query true (fun name hname => ?_) hwrites.run.1 hwrites.run.2
  obtain rfl := Option.some.inj hname
  exact hindex

end Plan

end KeyedQuery
