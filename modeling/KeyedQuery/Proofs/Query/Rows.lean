import KeyedQuery.Proofs.StableSort
import KeyedQuery.Proofs.Value.Order
import KeyedQuery.Query.Rows

/-!
# Sorted rows

What sorting in memory does to the rows whose attribute is a number or missing, whatever there is besides
these. By type they are apart from the others, so the sorted rows stand in the order of their types, and
numbers stand in the wanted direction (`SortSpec.pairwise_sortItems`). Of two such rows in this order the
first does not come later by the comparison of rows (`SortSpec.compareItems_ne_gt`).
-/

namespace KeyedQuery

/-! ## Directions -/

section

variable {α : Type} {cmp : α → α → Ordering} [Std.TransCmp cmp] {a b c : α}

theorem SortDirection.trans (direction : SortDirection) (hab : direction.apply (cmp a b) ≠ .gt)
    (hbc : direction.apply (cmp b c) ≠ .gt) : direction.apply (cmp a c) ≠ .gt := by
  cases direction with
  | asc =>
    simp only [apply, ← Ordering.isLE_iff_ne_gt] at hab hbc ⊢
    exact Std.TransCmp.isLE_trans hab hbc
  | desc =>
    have hswap : ∀ x y, (cmp x y).swap = cmp y x := fun _ _ => Std.OrientedCmp.eq_swap.symm
    simp only [apply, hswap, ← Ordering.isLE_iff_ne_gt] at hab hbc ⊢
    exact Std.TransCmp.isLE_trans hbc hab

end

theorem SortDirection.apply_swap (direction : SortDirection) (o : Ordering) :
    direction.apply o.swap = (direction.apply o).swap := by
  cases direction <;> rfl

/-- A number, if the attribute of the row is one. -/
def Item.number? (field : String) (item : Item) : Option Number :=
  match Fields.get? item field with
  | some (.num n) => some n
  | _ => none

theorem Item.number?_eq_some_iff {field : String} {item : Item} {n : Number} :
    item.number? field = some n ↔ Fields.get? item field = some (.num n) := by
  unfold number?
  split
  · simp_all
  · rename_i hnot
    simp only [reduceCtorEq, false_iff]
    exact fun h => hnot n h

/-- The attribute of the row is a number, absent or null. -/
def Item.NumberOrMissing (field : String) (item : Item) : Prop :=
  Value.isMissing (Fields.get? item field) = true ∨ (item.number? field).isSome

instance (field : String) (item : Item) : Decidable (item.NumberOrMissing field) :=
  inferInstanceAs (Decidable
    (Value.isMissing (Fields.get? item field) = true ∨ (item.number? field).isSome))

/-! ## Comparing -/

namespace Value

theorem typeRank_eq_of_compare? {v w : Value} {o : Ordering} (h : v.compare? w = some o) :
    v.typeRank = w.typeRank := by
  cases v <;> cases w <;> first | rfl | cases h

theorem typeRank_le (v : Value) : v.typeRank ≤ 5 := by
  cases v <;> simp [typeRank]

theorem compareForSort_swap (v w : Value) : w.compareForSort v = (v.compareForSort w).swap := by
  unfold compareForSort
  rw [compare?_swap v w]
  cases v.compare? w with
  | none => exact (Nat.compare_swap _ _).symm
  | some o => rfl

end Value

namespace SortSpec

variable {direction : SortDirection} {u v w : Option Value} {s : SortSpec} {a b : Item}
  {items : List Item}

theorem compareAttributes_swap (direction : SortDirection) (v w : Option Value) :
    compareAttributes direction w v = (compareAttributes direction v w).swap := by
  unfold compareAttributes
  cases Value.isMissing v <;> cases Value.isMissing w
  case false.false => rw [Value.compareForSort_swap, SortDirection.apply_swap]
  all_goals rfl

theorem compareItems_swap (s : SortSpec) (a b : Item) :
    s.compareItems b a = (s.compareItems a b).swap :=
  compareAttributes_swap _ _ _

/-- The place of a type in a direction. -/
def typePlace (direction : SortDirection) (v : Value) : Nat :=
  match direction with
  | .asc => v.typeRank
  | .desc => 5 - v.typeRank

/-- The place of an attribute by its type: missing ones last, whatever the direction. -/
def place (direction : SortDirection) (v : Option Value) : Nat :=
  if Value.isMissing v then 6 else typePlace direction (Value.ofOption v)

/-- Attributes in the order of their types, and numbers in the direction. -/
def InOrder (direction : SortDirection) (v w : Option Value) : Prop :=
  place direction v < place direction w ∨ place direction v = place direction w ∧
    ∀ k n, v = some (.num k) → w = some (.num n) → direction.apply (k.compare n) ≠ .gt

theorem place_of_isMissing (hv : Value.isMissing v = true) : place direction v = 6 :=
  if_pos hv

theorem place_of_present (hv : Value.isMissing v = false) :
    place direction v = typePlace direction (Value.ofOption v) :=
  if_neg (by simp [hv])

theorem typePlace_lt (direction : SortDirection) (v : Value) : typePlace direction v < 6 := by
  have hle := v.typeRank_le
  cases direction <;> dsimp only [typePlace] <;> omega

/-- At the place of numbers there are numbers only. -/
theorem exists_number_of_place {n : Number}
    (h : place direction v = place direction (some (.num n))) : ∃ k, v = some (.num k) := by
  cases v with
  | none => cases direction <;> cases h
  | some v =>
    cases v with
    | num k => exact ⟨k, rfl⟩
    | null | bool _ | str _ | list _ | map _ => cases direction <;> cases h

theorem InOrder.trans (huv : InOrder direction u v) (hvw : InOrder direction v w) :
    InOrder direction u w := by
  rcases huv with huv | ⟨huv, hnumbers⟩
  · rcases hvw with hvw | ⟨hvw, -⟩
    · exact .inl (Nat.lt_trans huv hvw)
    · exact .inl (hvw ▸ huv)
  · rcases hvw with hvw | ⟨hvw, hnumbers'⟩
    · exact .inl (huv ▸ hvw)
    · refine .inr ⟨huv.trans hvw, fun k n hu hw => ?_⟩
      obtain ⟨j, hv⟩ := exists_number_of_place (hw ▸ hvw)
      exact direction.trans (hnumbers k j hu hv) (hnumbers' j n hv hw)

theorem typePlace_le {v w : Value} (h : direction.apply (v.compareForSort w) ≠ .gt) :
    typePlace direction v ≤ typePlace direction w := by
  unfold Value.compareForSort at h
  cases hcompare : v.compare? w with
  | some o =>
    have hrank := Value.typeRank_eq_of_compare? hcompare
    cases direction <;> simp [typePlace, hrank]
  | none =>
    rw [hcompare, Option.getD_none] at h
    cases direction with
    | asc => exact Nat.isLE_compare.mp (Ordering.isLE_iff_ne_gt.mpr h)
    | desc =>
      rw [SortDirection.apply, Nat.compare_swap] at h
      exact Nat.sub_le_sub_left (Nat.isLE_compare.mp (Ordering.isLE_iff_ne_gt.mpr h)) 5

/-- Attributes that do not come later by their comparison are in order. -/
theorem inOrder_of_compareAttributes (h : compareAttributes direction v w ≠ .gt) :
    InOrder direction v w := by
  unfold compareAttributes at h
  cases hv : Value.isMissing v with
  | true =>
    cases hw : Value.isMissing w with
    | true =>
      refine .inr ⟨by rw [place_of_isMissing hv, place_of_isMissing hw], fun k n hk _ => ?_⟩
      rw [hk] at hv
      cases hv
    | false => simp [hv, hw] at h
  | false =>
    cases hw : Value.isMissing w with
    | true =>
      refine .inl ?_
      rw [place_of_isMissing hw, place_of_present hv]
      exact typePlace_lt direction _
    | false =>
      simp only [hv, hw] at h
      have hle : place direction v ≤ place direction w := by
        rw [place_of_present hv, place_of_present hw]
        exact typePlace_le h
      refine (Nat.lt_or_eq_of_le hle).imp id fun heq => ⟨heq, fun k n hk hn => ?_⟩
      simpa [hk, hn, Value.ofOption, Value.compareForSort, Value.compare?] using h

/-- Rows in order of which the attributes are numbers or missing do not come later by their comparison. -/
theorem compareItems_ne_gt (h : InOrder s.direction (Fields.get? a s.field) (Fields.get? b s.field))
    (ha : a.NumberOrMissing s.field) (hb : b.NumberOrMissing s.field) : s.compareItems a b ≠ .gt := by
  unfold compareItems compareAttributes
  rcases hb with hb | hb
  · rw [hb]
    cases Value.isMissing (Fields.get? a s.field) <;> simp
  · obtain ⟨n, hn⟩ := Option.isSome_iff_exists.mp hb
    rw [Item.number?_eq_some_iff] at hn
    have hlt := typePlace_lt s.direction (.num n)
    rcases ha with ha | ha
    · rw [InOrder, place_of_isMissing ha, hn, place_of_present rfl] at h
      rcases h with h | ⟨h, -⟩
      · exact absurd h (Nat.lt_asymm hlt)
      · exact absurd h.symm (Nat.ne_of_lt hlt)
    · obtain ⟨k, hk⟩ := Option.isSome_iff_exists.mp ha
      rw [Item.number?_eq_some_iff] at hk
      rw [hk, hn] at h ⊢
      rcases h with h | ⟨-, h⟩
      · exact absurd h (Nat.lt_irrefl _)
      · exact h k n rfl rfl

/-- Sorted rows are in the order of their types, and numbers in the direction. -/
theorem pairwise_sortItems (s : SortSpec) (items : List Item) :
    (s.sortItems items).Pairwise fun a b =>
      InOrder s.direction (Fields.get? a s.field) (Fields.get? b s.field) := by
  refine pairwise_stableSort_of_trans (fun _ _ _ => .trans) (fun a b hab => ?_)
    (List.pairwise_of_forall fun y x hxy => ?_)
  · refine inOrder_of_compareAttributes ?_
    show s.compareItems a b ≠ .gt
    rw [of_decide_eq_true hab]
    simp
  · refine inOrder_of_compareAttributes ?_
    show s.compareItems y x ≠ .gt
    rw [s.compareItems_swap x y]
    have hne := of_decide_eq_false hxy
    cases hcompare : s.compareItems x y <;> simp_all

/-! ## Numbers first -/

/-- Behind a row there are numbers only if it has one itself, and they follow it in the direction. -/
def Leads (s : SortSpec) (a b : Item) : Prop :=
  ∀ n, b.number? s.field = some n →
    ∃ k, a.number? s.field = some k ∧ s.direction.apply (k.compare n) ≠ .gt

theorem Leads.trans {c : Item} (hab : s.Leads a b) (hbc : s.Leads b c) : s.Leads a c := by
  intro n hn
  obtain ⟨j, hj, hjn⟩ := hbc n hn
  obtain ⟨k, hk, hkj⟩ := hab j hj
  exact ⟨k, hk, s.direction.trans hkj hjn⟩

theorem Leads.compareItems_ne_gt (h : s.Leads a b) (hb : b.NumberOrMissing s.field) :
    s.compareItems a b ≠ .gt := by
  unfold compareItems compareAttributes
  rcases hb with hb | hb
  · rw [hb]
    cases Value.isMissing (Fields.get? a s.field) <;> simp
  · obtain ⟨n, hn⟩ := Option.isSome_iff_exists.mp hb
    obtain ⟨k, hk, hkn⟩ := h n hn
    rw [Item.number?_eq_some_iff.mp hk, Item.number?_eq_some_iff.mp hn]
    exact hkn

end SortSpec

end KeyedQuery
