import KeyedQuery.Plan.Requests
import KeyedQuery.Proofs.Expression.Condition
import KeyedQuery.Proofs.Value.Agreement

/-!
# What the texts of a plan mean

The store and the filter in memory agree on every condition that the store takes, except for tests
against null (`NormalizedCondition.holds_of_predicate?`). So a filter text means that all of its
conditions hold (`writes_filter`). Of conditions in two parts, those that a request uses and the
others, the request keeps every row that satisfies them, and no other row unless something is left
to be tested in memory (`Splits.narrows`).
-/

namespace KeyedQuery

open Placeholders

/-! ## Two readings of one condition -/

namespace NormalizedCondition

/-- The parsed form of a condition, if the store takes it. -/
def predicate? (c : NormalizedCondition) : Option Predicate :=
  c.operator.predicate? c.field c.value

/-- The condition is no test against null. -/
def IsDefinite (c : NormalizedCondition) : Prop :=
  c.operator = .eq ∨ c.operator = .ne → c.value.isNull = false

/-- The condition is marked exactly if the store cannot evaluate it. -/
def IsMarked (c : NormalizedCondition) : Prop :=
  c.clientOnly = !c.operator.isNativeFor c.value

end NormalizedCondition

theorem follow?_key (field : String) (item : Item) :
    Value.follow? [.key field] (.map item) = Fields.get? item field := by
  show (Fields.get? item field).bind some = _
  cases Fields.get? item field <;> rfl

namespace Operator

theorem isSome_predicate? (op : Operator) (field : String) (v : Value) :
    (op.predicate? field v).isSome = op.isNativeFor v := by
  cases op with
  | isIn =>
    cases v with
    | list xs =>
      rw [predicate?, isNativeFor]
      cases isMemberList (.list xs) <;> rfl
    | _ => rfl
  | notIn =>
    cases v with
    | list xs =>
      rw [predicate?, isNativeFor]
      cases isMemberList (.list xs) <;> rfl
    | _ => rfl
  | _ => rfl

theorem ordered_eq_holds {op : Comparator} (hop : op ≠ .eq ∧ op ≠ .ne) (actual : Option Value)
    (v : Value) : ordered op actual v = op.holds actual v := by
  obtain ⟨heq, hne⟩ := hop
  cases actual with
  | none => simp [ordered, Comparator.holds, hne]
  | some w => cases op <;> cases w <;> first | rfl | exact absurd rfl heq | exact absurd rfl hne

/-- The parsed form of an operator means the operator, unless it tests for null. -/
theorem holds_of_predicate? {op : Operator} {field : String} {v : Value} {p : Predicate}
    (h : op.predicate? field v = some p) (hdefinite : op = .eq ∨ op = .ne → v.isNull = false)
    (item : Item) : p.holds item = op.holds (Fields.get? item field) v := by
  cases op with
  | eq =>
    obtain rfl := Option.some.inj h
    rw [Predicate.holds, follow?_key]
    cases Fields.get? item field with
    | none => exact (hdefinite (.inl rfl)).symm
    | some w => rfl
  | ne =>
    obtain rfl := Option.some.inj h
    rw [Predicate.holds, follow?_key]
    cases Fields.get? item field with
    | none => simp [Comparator.holds, holds, equals, hdefinite (.inr rfl)]
    | some w => rfl
  | gt | gte | lt | lte =>
    obtain rfl := Option.some.inj h
    rw [Predicate.holds, follow?_key]
    exact (ordered_eq_holds (by simp) _ v).symm
  | isIn =>
    cases v with
    | list xs =>
      rw [predicate?] at h
      split at h
      · obtain rfl := Option.some.inj h
        rw [Predicate.holds, follow?_key]
        cases Fields.get? item field <;> rfl
      · cases h
    | _ => cases h
  | notIn =>
    cases v with
    | list xs =>
      rw [predicate?] at h
      split at h
      · obtain rfl := Option.some.inj h
        rw [Predicate.holds, Predicate.holds, follow?_key]
        cases Fields.get? item field <;> rfl
      · cases h
    | _ => cases h
  | contains | startsWith =>
    obtain rfl := Option.some.inj h
    rw [Predicate.holds, follow?_key]
    rfl
  | endsWith => cases h

end Operator

namespace NormalizedCondition

/-- The store and the filter in memory agree on a condition that is no test against null. -/
theorem holds_of_predicate? {c : NormalizedCondition} {p : Predicate} (h : c.predicate? = some p)
    (hdefinite : c.IsDefinite) (item : Item) : p.holds item = c.holds item :=
  Operator.holds_of_predicate? h hdefinite item

theorem predicate?_isSome {c : NormalizedCondition} (hmarked : c.IsMarked)
    (hnative : c.clientOnly = false) : c.predicate?.isSome = true := by
  rw [predicate?, Operator.isSome_predicate?]
  simpa [IsMarked, hnative] using hmarked

end NormalizedCondition

/-- All conditions hold. -/
def allHold (conditions : List NormalizedCondition) (item : Item) : Bool :=
  conditions.all fun c => c.holds item

/-! ## Filters -/

/-- The fragments read as the parsed forms of their conditions. -/
def FragmentsRead (a : Attributes) (texts : List String)
    (conditions : List NormalizedCondition) : Prop :=
  List.Forall₂ (fun text c => ∃ p, c.predicate? = some p ∧ TestReads a 5 text p) texts conditions

theorem FragmentsRead.exists_predicates {a : Attributes} : ∀ {texts : List String}
    {conditions : List NormalizedCondition}, FragmentsRead a texts conditions →
      ∃ ps, List.Forall₂ (TestReads a 5) texts ps ∧
        List.Forall₂ (fun p c => c.predicate? = some p) ps conditions
  | [], [], .nil => ⟨[], .nil, .nil⟩
  | _ :: _, _ :: _, .cons h hrest => by
    obtain ⟨p, hp, hreads⟩ := h
    obtain ⟨ps, hreads', hps⟩ := FragmentsRead.exists_predicates hrest
    exact ⟨p :: ps, .cons hreads hreads', .cons hp hps⟩

theorem all_holds_predicates {item : Item} : ∀ {ps : List Predicate}
    {conditions : List NormalizedCondition}, (∀ c ∈ conditions, c.IsDefinite) →
      List.Forall₂ (fun p c => c.predicate? = some p) ps conditions →
      (ps.all fun p => p.holds item) = allHold conditions item
  | [], [], _, .nil => rfl
  | p :: ps, c :: conditions, hdefinite, .cons h hrest => by
    simp only [List.all_cons, allHold]
    rw [c.holds_of_predicate? h (hdefinite c List.mem_cons_self),
      all_holds_predicates (fun d hd => hdefinite d (List.mem_cons_of_mem c hd)) hrest]
    rfl

/-- The text is a condition, and the condition means the test. -/
def TextMeans (a : Attributes) (text : String) (test : Item → Bool) : Prop :=
  ∃ p, Predicate.parse a text = .ok p ∧ ∀ item, p.holds item = test item

/-- The fragments of some conditions, with `AND` between them, are a condition. It means that all of the
conditions hold, if none of them is a test against null. -/
theorem FragmentsRead.exists_textMeans {a : Attributes} {texts : List String}
    {conditions : List NormalizedCondition} (h : FragmentsRead a texts conditions)
    (hne : conditions ≠ []) : ∃ test, TextMeans a (" AND ".intercalate texts) test ∧
      ((∀ c ∈ conditions, c.IsDefinite) → test = allHold conditions) := by
  obtain ⟨ps, hreads, hps⟩ := h.exists_predicates
  cases hreads with
  | nil =>
    cases hps
    exact absurd rfl hne
  | cons hfirst hrest =>
    refine ⟨_, ⟨_, parse_conjunction (.cons hfirst hrest), fun item => rfl⟩, fun hdefinite => ?_⟩
    funext item
    rw [Predicate.holds_conjunction, all_holds_predicates hdefinite hps]

theorem writes_fragments : ∀ {conditions : List NormalizedCondition},
    (∀ c ∈ conditions, c.predicate?.isSome = true) →
      Writes (fragments? conditions) fun r texts =>
        ∃ fragments, texts = some fragments ∧ FragmentsRead r.attributes fragments conditions
  | [], _ => Writes.pure fun r => ⟨[], rfl, .nil⟩
  | c :: conditions, h => by
    obtain ⟨p, hp⟩ := Option.isSome_iff_exists.mp (h c List.mem_cons_self)
    have hrel : c.operator.predicate? c.field c.value = some p := hp
    refine (writes_name c.field).bind fun name => ?_
    refine (Operator.writes_fragment c.operator name c.field c.value).bind fun text => ?_
    cases text with
    | none =>
      refine Writes.pure fun r htext hname => ?_
      have hnone := htext hname
      rw [hrel] at hnone
      cases hnone
    | some fragment =>
      refine (writes_fragments fun d hd => h d (List.mem_cons_of_mem c hd)).bind fun more => ?_
      refine Writes.pure fun r hmore htext hname => ?_
      obtain ⟨fragments, rfl, hreads⟩ := hmore
      have hsome := htext hname
      rw [hrel] at hsome
      cases hsome with
      | some hreads' => exact ⟨_, rfl, .cons ⟨p, hp, hreads'⟩ hreads⟩

/-- What the filter of some conditions leaves to pass: everything if one of them has to be tested in
memory, otherwise the rows for which all of them hold. -/
def filterPasses (conditions : List NormalizedCondition) (item : Item) : Bool :=
  (conditions.any fun c => c.clientOnly ∨ c.connector = .or) || allHold conditions item

/-- The filter means the test; without a filter everything passes. -/
def FilterMeans (a : Attributes) (filter : Option String) (passes : Item → Bool) : Prop :=
  match filter with
  | some text => TextMeans a text passes
  | none => ∀ item, passes item = true

theorem connector_eq_and {c : NormalizedCondition} (h : c.connector ≠ .or) : c.connector = .and := by
  cases hc : c.connector with
  | and => rfl
  | or => exact absurd hc h

/-- The filter of marked conditions is one that the store takes. -/
theorem writes_filter_of_marked {conditions : List NormalizedCondition}
    (hmarked : ∀ c ∈ conditions, c.IsMarked) :
    Writes (filterExpression? conditions) fun r filter => ∃ passes,
      FilterMeans r.attributes filter passes ∧
        ((∀ c ∈ conditions, c.IsDefinite) → passes = filterPasses conditions) := by
  unfold filterExpression?
  split
  · rename_i hnone
    refine Writes.pure fun r => ⟨fun _ => true, fun _ => rfl, fun _ => funext fun item => ?_⟩
    rcases hnone with hnil | hany
    · rw [List.isEmpty_iff.mp hnil]
      rfl
    · rw [filterPasses, hany, Bool.true_or]
  · rename_i hsome
    obtain ⟨hne, hnative⟩ := not_or.mp hsome
    rw [List.isEmpty_iff] at hne
    rw [Bool.not_eq_true] at hnative
    have hpredicates : ∀ c ∈ conditions, c.predicate?.isSome = true := fun c hc => by
      have hmark := List.any_eq_false.mp hnative c hc
      exact c.predicate?_isSome (hmarked c hc) (by simp at hmark; simp [hmark])
    refine (writes_fragments hpredicates).bind fun texts => Writes.pure fun r htexts => ?_
    obtain ⟨fragments, rfl, hreads⟩ := htexts
    obtain ⟨test, htext, htest⟩ := hreads.exists_textMeans hne
    refine ⟨test, htext, fun hdefinite => funext fun item => ?_⟩
    rw [htest hdefinite, filterPasses, hnative, Bool.false_or]

theorem writes_filter {conditions : List NormalizedCondition}
    (hmarked : ∀ c ∈ conditions, c.IsMarked) (hdefinite : ∀ c ∈ conditions, c.IsDefinite) :
    Writes (filterExpression? conditions) fun r filter =>
      FilterMeans r.attributes filter (filterPasses conditions) :=
  (writes_filter_of_marked hmarked).imp fun _ _ ⟨_, hmeans, hpasses⟩ => hpasses hdefinite ▸ hmeans

/-! ## Conditions in two parts -/

theorem allHold_iff {conditions : List NormalizedCondition} {item : Item} :
    allHold conditions item = true ↔ ∀ c ∈ conditions, c.holds item = true :=
  List.all_eq_true

/-- The conditions are those that a request uses, all of them required, and the remaining ones. -/
structure Splits (conditions used remaining : List NormalizedCondition) : Prop where
  mem : ∀ c, c ∈ conditions ↔ c ∈ used ∨ c ∈ remaining
  required : ∀ c ∈ used, c.connector = .and

theorem holds_of_matchesAll {conditions : List NormalizedCondition} {item : Item}
    (h : matchesAll conditions item = true) {c : NormalizedCondition} (hc : c ∈ conditions)
    (hand : c.connector = .and) : c.holds item = true := by
  simp only [matchesAll, Bool.and_eq_true, List.all_eq_true] at h
  exact h.1 c (List.mem_filter.mpr ⟨hc, by simpa using hand⟩)

theorem matchesAll_eq_allHold {conditions : List NormalizedCondition}
    (h : ∀ c ∈ conditions, c.connector = .and) (item : Item) :
    matchesAll conditions item = allHold conditions item := by
  have hrequired : (conditions.filter fun c => c.connector = .and) = conditions :=
    List.filter_eq_self.mpr fun c hc => by simpa using h c hc
  have hchoices : (conditions.filter fun c => c.connector = .or) = [] :=
    List.filter_eq_nil_iff.mpr fun c hc => by simp [h c hc]
  simp [matchesAll, hrequired, hchoices, allHold]

/-- The store can evaluate every condition, and all of them are required. -/
def AllNative (conditions : List NormalizedCondition) : Prop :=
  ∀ c ∈ conditions, c.clientOnly = false ∧ c.connector = .and

/-- The test keeps every row that satisfies the conditions, and no other one if it is exact. -/
structure Narrows (conditions : List NormalizedCondition) (exact : Prop) (keep : Item → Bool) :
    Prop where
  of_matchesAll : ∀ item, matchesAll conditions item = true → keep item = true
  eq_matchesAll : exact → ∀ item, keep item = matchesAll conditions item

/-- Filtering what has been kept leaves the rows that satisfy the conditions. -/
theorem Narrows.filter_filter {conditions : List NormalizedCondition} {exact : Prop}
    {keep : Item → Bool} (h : Narrows conditions exact keep) (items : List Item) :
    (items.filter keep).filter (matchesAll conditions) = items.filter (matchesAll conditions) := by
  rw [List.filter_filter]
  refine List.filter_congr fun item _ => ?_
  cases hitem : matchesAll conditions item with
  | false => rfl
  | true => rw [h.of_matchesAll item hitem, Bool.and_self]

/-- Testing the used conditions, and the others by their filter, is exact if nothing has to be tested
in memory. -/
theorem Splits.narrows {conditions used remaining : List NormalizedCondition}
    (h : Splits conditions used remaining) :
    Narrows conditions (AllNative conditions)
      fun item => allHold used item && filterPasses remaining item where
  of_matchesAll item hall := by
    rw [Bool.and_eq_true, allHold_iff]
    refine ⟨fun c hc => holds_of_matchesAll hall ((h.mem c).mpr (.inl hc)) (h.required c hc), ?_⟩
    cases hany : remaining.any fun c => c.clientOnly ∨ c.connector = .or with
    | true => rw [filterPasses, hany, Bool.true_or]
    | false =>
      rw [filterPasses, hany, Bool.false_or, allHold_iff]
      intro c hc
      have hmark := List.any_eq_false.mp hany c hc
      exact holds_of_matchesAll hall ((h.mem c).mpr (.inr hc))
        (connector_eq_and (by simp at hmark; exact hmark.2))
  eq_matchesAll hnative item := by
    have hany : (remaining.any fun c => c.clientOnly ∨ c.connector = .or) = false :=
      List.any_eq_false.mpr fun c hc => by simp [hnative c ((h.mem c).mpr (.inr hc))]
    rw [filterPasses, hany, Bool.false_or, matchesAll_eq_allHold fun c hc => (hnative c hc).2,
      Bool.eq_iff_iff, Bool.and_eq_true, allHold_iff, allHold_iff, allHold_iff]
    refine ⟨fun ⟨hused, hremaining⟩ c hc => ?_, fun hall => ⟨fun c hc => ?_, fun c hc => ?_⟩⟩
    · rcases (h.mem c).mp hc with hc | hc
      · exact hused c hc
      · exact hremaining c hc
    · exact hall c ((h.mem c).mpr (.inl hc))
    · exact hall c ((h.mem c).mpr (.inr hc))

end KeyedQuery
