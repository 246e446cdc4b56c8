import KeyedQuery.Proofs.Plan.Texts

/-!
# Evaluation in the store and in memory

Every operator exists twice: as a text that the store parses and evaluates, and as a test in memory.
`Operator.holds_write?_iff` compares the two. The text always parses, whatever is written before and
after it under the same tables, and what it parses to is the test in memory but for one case: the store
takes an absent attribute for different from null, the test in memory for equal to it.
-/

namespace KeyedQuery

open Placeholders

namespace Operator

/-- The operator on an attribute, as it is put into an expression. -/
def write? (op : Operator) (field : String) (v : Value) : StateM Placeholders (Option String) := do
  let name ← Placeholders.name field
  op.fragment? name v

/-- The operator compares an attribute with null. -/
def TestsNull (op : Operator) (v : Value) : Prop :=
  (op = .eq ∨ op = .ne) ∧ v.isNull = true

/-! ## Texts -/

theorem neverShares_comparison (name sign : String) (v : Value) :
    NeverShares (comparison name sign v) :=
  (neverShares_value v).bind fun _ => NeverShares.pure _

theorem neverShares_membership (name : String) (vs : List Value) :
    NeverShares (membership name vs) :=
  ((neverShares_mapM neverShares_value vs).bind fun _ => NeverShares.pure _).bind
    fun _ => NeverShares.pure _

theorem neverShares_application (function name : String) (v : Value) :
    NeverShares (application function name v) :=
  (neverShares_value v).bind fun _ => NeverShares.pure _

theorem neverShares_some {m : StateM Placeholders String} (h : NeverShares m) :
    NeverShares (some <$> m) :=
  h.bind fun _ => NeverShares.pure _

theorem neverShares_fragment? (op : Operator) (name : String) (v : Value) :
    NeverShares (op.fragment? name v) := by
  cases op with
  | eq | ne | gt | gte | lt | lte => exact neverShares_some (neverShares_comparison _ _ _)
  | isIn =>
    cases v with
    | list xs =>
      rw [fragment?]
      split
      · exact neverShares_some (neverShares_membership name xs)
      · exact NeverShares.pure none
    | _ => exact NeverShares.pure none
  | notIn =>
    cases v with
    | list xs =>
      rw [fragment?]
      split
      · exact (neverShares_membership name xs).bind fun _ => NeverShares.pure _
      · exact NeverShares.pure none
    | _ => exact NeverShares.pure none
  | contains | startsWith => exact neverShares_some (neverShares_application _ _ _)
  | endsWith => exact NeverShares.pure none

theorem neverShares_write? (op : Operator) (field : String) (v : Value) :
    NeverShares (op.write? field v) :=
  (neverShares_name field).bind fun name => neverShares_fragment? op name v

/-- An operator that the store has a form for is written as a text that reads as this form. -/
theorem writes_write? {op : Operator} {field : String} {v : Value} {predicate : Predicate}
    (h : op.predicate? field v = some predicate) :
    Writes (op.write? field v) fun r text? =>
      ∃ text, text? = some text ∧ TestReads r.attributes 5 text predicate := by
  refine (writes_name field).bind fun name => ?_
  refine (writes_fragment op name field v).imp fun r text? hread hname => ?_
  have hrel := hread hname
  rw [h] at hrel
  cases hrel with
  | some hreads => exact ⟨_, rfl, hreads⟩

/-! ## Meaning -/

/-- On an absent attribute the two evaluations of a comparison with null differ. -/
theorem holds_ne_of_testsNull {op : Operator} {field : String} {v : Value} {predicate : Predicate}
    (h : op.predicate? field v = some predicate) (hnull : op.TestsNull v) {item : Item}
    (habsent : Fields.get? item field = none) :
    predicate.holds item ≠ op.holds (Fields.get? item field) v := by
  obtain ⟨rfl | rfl, hv⟩ := hnull <;> obtain rfl := Option.some.inj h <;>
    simp [Predicate.holds, follow?_key, habsent, Comparator.holds, holds, equals, hv]

/-- On an attribute that is there, the parsed form of an operator means the operator. -/
theorem holds_of_present {op : Operator} {field : String} {v : Value} {predicate : Predicate}
    (h : op.predicate? field v = some predicate) {item : Item}
    (hpresent : Fields.get? item field ≠ none) :
    predicate.holds item = op.holds (Fields.get? item field) v := by
  obtain ⟨w, hw⟩ := Option.ne_none_iff_exists'.mp hpresent
  by_cases hop : op = .eq ∨ op = .ne
  · rcases hop with rfl | rfl <;> obtain rfl := Option.some.inj h <;>
      rw [Predicate.holds, follow?_key, hw] <;> rfl
  · exact holds_of_predicate? h (fun hop' => absurd hop' hop) item

/-- An operator that the store can evaluate is written as a text that parses. The store then accepts a row
exactly if the test in memory does, unless the attribute is absent and is compared with null: there, one
of them accepts the row and the other does not. -/
theorem holds_write?_iff {op : Operator} {v : Value} (h : op.isNativeFor v = true) (field : String)
    {p r : Placeholders} (hr : (op.write? field v p).2 ≤ r) :
    ∃ text predicate, (op.write? field v p).1 = some text ∧
      Predicate.parse r.attributes text = .ok predicate ∧
      (∀ item, predicate.holds item = op.holds (Fields.get? item field) v ↔
        ¬(op.TestsNull v ∧ Fields.get? item field = none)) := by
  have hsome : (op.predicate? field v).isSome = true := by rw [isSome_predicate?, h]
  obtain ⟨predicate, hpredicate⟩ := Option.isSome_iff_exists.mp hsome
  obtain ⟨text, htext, hreads⟩ :=
    (writes_write? hpredicate).of_neverShares (neverShares_write? op field v) hr
  have hparse := parse_conjunction (.cons hreads .nil)
  rw [String.intercalate_singleton] at hparse
  refine ⟨text, predicate, htext, hparse, fun item => ⟨fun hagree hnull => ?_, fun hnot => ?_⟩⟩
  · exact holds_ne_of_testsNull hpredicate hnull.1 hnull.2 hagree
  · by_cases habsent : Fields.get? item field = none
    · refine holds_of_predicate? hpredicate (fun hop => ?_) item
      exact Bool.eq_false_iff.mpr fun hv => hnot ⟨⟨hop, hv⟩, habsent⟩
    · exact holds_of_present hpredicate habsent

/-- Not one of two values, behind a condition that has used a name and a value. -/
theorem holds_write?_iff_notIn :
    let v : Value := .list [.str "a", .num (.int 2)]
    let p : Placeholders := { names := ["id"], values := [.num (.int 1)] }
    let r := (notIn.write? "tag" v p).2
    notIn.isNativeFor v = true ∧
      ∃ text predicate, (notIn.write? "tag" v p).1 = some text ∧
        Predicate.parse r.attributes text = .ok predicate ∧
        (∀ item, predicate.holds item = notIn.holds (Fields.get? item "tag") v ↔
          ¬(notIn.TestsNull v ∧ Fields.get? item "tag" = none)) :=
  ⟨by decide, holds_write?_iff (by decide) "tag" (le_refl _)⟩

/-- The store does not find an absent attribute equal to null, the test in memory does. -/
theorem not_holds_write? :
    eq.isNativeFor .null = true ∧ (eq.write? "tag" .null {}).1 = some "#f0 = :v0" ∧
      (Predicate.parse (eq.write? "tag" .null {}).2.attributes "#f0 = :v0").map
        (fun predicate => predicate.holds []) = .ok false ∧
      eq.holds (Fields.get? ([] : Item) "tag") .null = true := by
  decide +kernel

end Operator

end KeyedQuery
