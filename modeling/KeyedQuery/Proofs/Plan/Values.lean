import KeyedQuery.Proofs.Grouping
import KeyedQuery.Proofs.Plan.Requests

/-!
# Rows by value

A membership is split into its distinct values, and each value reaches the rows whose attribute agrees
with it. Values of one group agree, so no row is missed, and no attribute agrees with two distinct
exact values, so none is reached twice (`covers_flatMap_filter`).
-/

namespace KeyedQuery

/-! ## Values -/

theorem any_agrees_distinct (v : Value) (xs : List Value) :
    ((Value.distinct xs).any fun x => v.agrees x) = xs.any fun x => v.agrees x := by
  rw [Bool.eq_iff_iff, List.any_eq_true, List.any_eq_true]
  constructor
  · rintro ⟨x, hx, hagrees⟩
    exact ⟨x, mem_of_mem_distinctBy hx, hagrees⟩
  · rintro ⟨x, hx, hagrees⟩
    obtain ⟨y, hy, hgroup⟩ : ∃ y ∈ Value.distinct xs, y.groupKey = x.groupKey :=
      exists_mem_distinctBy hx
    exact ⟨y, hy, Value.agrees_trans hagrees (Value.agrees_of_groupKey_eq hgroup.symm)⟩

/-- A membership holds if the attribute agrees with one of the distinct values. -/
theorem holds_membership {c : NormalizedCondition} {xs : List Value} (hop : c.operator = .isIn)
    (hvalue : c.value = .list xs) (item : Item) :
    c.holds item = (Value.distinct xs).any fun v => fieldAgrees c.field v item := by
  rw [NormalizedCondition.holds, hop, hvalue]
  unfold fieldAgrees
  show Operator.member (Fields.get? item c.field) (.list xs) = _
  cases Fields.get? item c.field with
  | none => simp [Operator.member]
  | some v => exact (any_agrees_distinct v xs).symm

/-- No attribute agrees with two distinct exact values. -/
theorem pairwise_fieldAgrees {xs : List Value} (hexact : ∀ x ∈ xs, x.IsExact) (field : String) :
    (Value.distinct xs).Pairwise fun v w =>
      ∀ item : Item, fieldAgrees field v item = true → fieldAgrees field w item = false := by
  refine (pairwise_distinctBy xs).imp_of_mem fun {v w} hv hw hne item hitem => ?_
  rw [Bool.eq_false_iff]
  intro hitem'
  obtain ⟨u, hu, huv⟩ := Option.any_eq_true _ _ |>.mp hitem
  obtain ⟨u', hu', huw⟩ := Option.any_eq_true _ _ |>.mp hitem'
  obtain rfl := Option.some.inj (hu.symm.trans hu')
  exact hne (((Value.groupKey_eq_iff (hexact v (mem_of_mem_distinctBy hv))).mpr huv).symm.trans
    ((Value.groupKey_eq_iff (hexact w (mem_of_mem_distinctBy hw))).mpr huw))

/-! ## Covered rows -/

/-- The first rows are those of the second that the test keeps, each of them once if that is stated. -/
structure Covers (rows items : List Item) (keep : Item → Bool) (once : Prop) : Prop where
  mem : ∀ item, item ∈ rows ↔ item ∈ items ∧ keep item = true
  perm : once → rows.Perm (items.filter keep)

section Covers

variable {rows rows' items : List Item} {keep : Item → Bool} {once : Prop}

theorem Covers.of_perm (h : rows.Perm (items.filter keep)) : Covers rows items keep once where
  mem item := by rw [h.mem_iff, List.mem_filter]
  perm _ := h

theorem Covers.trans (h : Covers rows items keep once) (hrows : rows'.Perm rows) :
    Covers rows' items keep once where
  mem item := by rw [hrows.mem_iff, h.mem]
  perm honce := hrows.trans (h.perm honce)

/-- The row is one that the test keeps, and there is none only if it keeps none. -/
def Finds (items : List Item) (keep : Item → Bool) : Option Item → Prop
  | some row => row ∈ items ∧ keep row = true
  | none => ∀ row ∈ items, keep row = false

theorem Covers.finds_head? (h : Covers rows items keep once) : Finds items keep rows.head? := by
  cases rows with
  | nil =>
    intro row hrow
    have hnone := h.mem row
    simpa [hrow] using hnone
  | cons row rows => exact (h.mem row).mp List.mem_cons_self

/-- Rows kept by tests of which no two keep one row are kept once by all of them together. -/
theorem perm_flatMap_filter {keep : Value → Item → Bool} :
    ∀ {values : List Value},
      (values.Pairwise fun v w => ∀ item, keep v item = true → keep w item = false) →
      (values.flatMap fun v => items.filter (keep v)).Perm
        (items.filter fun item => values.any fun v => keep v item)
  | [], _ => by simp
  | v :: values, h => by
    obtain ⟨hv, hrest⟩ := List.pairwise_cons.mp h
    have hsplit := List.filter_append_perm (keep v)
      (items.filter fun item => (v :: values).any fun w => keep w item)
    rw [List.filter_filter, List.filter_filter] at hsplit
    have hfirst : (items.filter fun item =>
        keep v item && (v :: values).any fun w => keep w item) = items.filter (keep v) :=
      List.filter_congr fun item _ => by cases hitem : keep v item <;> simp [hitem]
    have hothers : (items.filter fun item =>
        !keep v item && (v :: values).any fun w => keep w item) =
          items.filter fun item => values.any fun w => keep w item := by
      refine List.filter_congr fun item _ => ?_
      cases hitem : keep v item with
      | false => simp [hitem]
      | true =>
        rw [Bool.not_true, Bool.false_and, eq_comm, List.any_eq_false]
        exact fun w hw => by simp [hv w hw item hitem]
    rw [hfirst, hothers] at hsplit
    rw [List.flatMap_cons]
    exact ((perm_flatMap_filter hrest).append_left _).trans hsplit

/-- The rows of several tests are those that one of them keeps. -/
theorem covers_flatMap_filter {keep : Value → Item → Bool} {values : List Value}
    (honce : once → values.Pairwise fun v w => ∀ item, keep v item = true → keep w item = false) :
    Covers (values.flatMap fun v => items.filter (keep v)) items
      (fun item => values.any fun v => keep v item) once where
  mem item := by
    simp only [List.mem_flatMap, List.mem_filter, List.any_eq_true]
    constructor
    · rintro ⟨v, hv, hitem, hkeep⟩
      exact ⟨hitem, v, hv, hkeep⟩
    · rintro ⟨hitem, v, hv, hkeep⟩
      exact ⟨v, hv, hitem, hkeep⟩
  perm h := perm_flatMap_filter (honce h)

end Covers

end KeyedQuery
