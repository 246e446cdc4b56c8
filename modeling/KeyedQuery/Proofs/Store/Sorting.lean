import KeyedQuery.Proofs.Query.Rows
import KeyedQuery.Proofs.Store.Pages

/-!
# Rows in the order of an attribute

A query puts rows in the order of a sort attribute whether their values can be compared or not
(`Table.sortsBefore`). The rows are in order up to ties if these values are all of one kind
(`Table.ordersUpToTies_sortsBefore`). A row without a comparable value keeps its place, and no row gets
past it. So rows with numbers come first, in the wanted direction, if they come first before they are put in
order (`Table.pairwise_arrange`).
-/

namespace KeyedQuery

namespace Table

variable {field : String} {a b : Item} {rows : List Item}

theorem sortsBefore_iff : sortsBefore field a b = true ↔ ∃ v w, Fields.get? a field = some v ∧
    Fields.get? b field = some w ∧ v.compare? w = some .lt := by
  unfold sortsBefore
  cases Fields.get? a field <;> cases Fields.get? b field <;> simp

theorem sortsBefore_asymm (h : sortsBefore field a b = true) : sortsBefore field b a = false := by
  obtain ⟨v, w, hv, hw, hlt⟩ := sortsBefore_iff.mp h
  refine Bool.eq_false_iff.mpr fun hba => ?_
  obtain ⟨w', v', hw', hv', hgt⟩ := sortsBefore_iff.mp hba
  obtain rfl := Option.some.inj (hv.symm.trans hv')
  obtain rfl := Option.some.inj (hw.symm.trans hw')
  rw [Value.compare?_swap v w, hlt] at hgt
  cases hgt

/-- Rows with values of one kind are in order up to ties. -/
theorem ordersUpToTies_sortsBefore {kind : Value.Kind}
    (h : ∀ row ∈ rows, (Fields.get? row field).bind Value.kind? = some kind) :
    OrdersUpToTies (sortsBefore field) rows where
  asymm _ _ _ _ hab := sortsBefore_asymm hab
  split a ha b hb c hc hac := by
    obtain ⟨u, hu, hku⟩ := Option.bind_eq_some_iff.mp (h a ha)
    obtain ⟨v, hv, hkv⟩ := Option.bind_eq_some_iff.mp (h b hb)
    obtain ⟨w, hw, hkw⟩ := Option.bind_eq_some_iff.mp (h c hc)
    simp only [sortsBefore, hu, hv, hw, decide_eq_true_eq] at hac ⊢
    exact Value.compare?_split hku hkv hkw hac

/-! ## Numbers -/

/-- In the direction of the order, rows with a number come before those without one. -/
def NumbersFirst (s : SortSpec) (rows : List Item) : Prop :=
  (if s.direction = .asc then rows else rows.reverse).Pairwise fun a b =>
    (b.number? s.field).isSome → (a.number? s.field).isSome

instance (s : SortSpec) (rows : List Item) : Decidable (NumbersFirst s rows) :=
  inferInstanceAs (Decidable ((if s.direction = .asc then rows else rows.reverse).Pairwise fun a b =>
    (b.number? s.field).isSome → (a.number? s.field).isSome))

theorem numbersFirst_of_forall {s : SortSpec} (h : ∀ row ∈ rows, (row.number? s.field).isSome) :
    NumbersFirst s rows := by
  refine List.Pairwise.imp_of_mem (R := fun _ _ => True) (fun {a b} ha _ _ _ => ?_)
    (List.pairwise_of_forall fun _ _ => trivial)
  split at ha
  · exact h a ha
  · exact h a (List.mem_reverse.mp ha)

theorem leads_of_sortsBefore (h : sortsBefore field a b = true) :
    SortSpec.Leads ⟨field, .asc⟩ a b ∧ SortSpec.Leads ⟨field, .desc⟩ b a := by
  obtain ⟨v, w, hv, hw, hlt⟩ := sortsBefore_iff.mp h
  constructor
  · intro n hn
    obtain rfl := Option.some.inj (hw.symm.trans (Item.number?_eq_some_iff.mp hn))
    cases v <;> simp only [Value.compare?, reduceCtorEq, Option.some.injEq] at hlt
    case num k =>
      exact ⟨k, Item.number?_eq_some_iff.mpr hv, by simp [hlt, SortDirection.apply]⟩
  · intro n hn
    obtain rfl := Option.some.inj (hv.symm.trans (Item.number?_eq_some_iff.mp hn))
    cases w <;> simp only [Value.compare?, reduceCtorEq, Option.some.injEq] at hlt
    case num k =>
      refine ⟨k, Item.number?_eq_some_iff.mpr hw, ?_⟩
      rw [Number.compare_swap, hlt]
      simp [SortDirection.apply]

theorem compare_ne_lt_of_sortsBefore {k n : Number} (h : sortsBefore field a b = false)
    (ha : a.number? field = some k) (hb : b.number? field = some n) : k.compare n ≠ .lt := by
  rw [Item.number?_eq_some_iff] at ha hb
  simpa [sortsBefore, ha, hb, Value.compare?] using h

/-- Putting rows in order keeps those with numbers first, and puts them in the direction. -/
theorem pairwise_arrange {s : SortSpec} (h : NumbersFirst s rows) :
    (if s.direction = .asc then arrange (some s.field) rows
      else (arrange (some s.field) rows).reverse).Pairwise s.Leads := by
  obtain ⟨field, direction⟩ := s
  cases direction with
  | asc =>
    refine pairwise_stableSort_of_trans (fun _ _ _ => .trans) (fun a b hab => (leads_of_sortsBefore hab).1)
      (List.Pairwise.imp (fun {y x} hfirst hxy n hn => ?_) h)
    obtain ⟨k, hk⟩ := Option.isSome_iff_exists.mp (hfirst (by rw [hn]; rfl))
    refine ⟨k, hk, ?_⟩
    have hne := compare_ne_lt_of_sortsBefore hxy hn hk
    rw [Number.compare_swap]
    cases hcompare : n.compare k <;> simp_all [SortDirection.apply]
  | desc =>
    -- Rows that tie are turned around with the others, so the last one of them comes first.
    refine List.pairwise_reverse.mpr (pairwise_stableSort_of_trans (fun _ _ _ hab hbc => hbc.trans hab)
      (fun a b hab => (leads_of_sortsBefore hab).2)
      (List.Pairwise.imp (fun {y x} hfirst hxy n hn => ?_) (List.pairwise_reverse.mp h)))
    obtain ⟨k, hk⟩ := Option.isSome_iff_exists.mp (hfirst (by rw [hn]; rfl))
    refine ⟨k, hk, ?_⟩
    have hne := compare_ne_lt_of_sortsBefore hxy hk hn
    cases hcompare : k.compare n <;> simp_all [SortDirection.apply]

end Table

end KeyedQuery
