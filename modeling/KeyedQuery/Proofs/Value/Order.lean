import KeyedQuery.Value.Order
import Mathlib.Order.Defs.LinearOrder

/-!
# Values in order

Numbers, truth values, points in time and plain texts are each ordered, and `Value.kind?` says to which of
these a value belongs. Values of one kind are in order up to ties (`Value.compare?_split`). A text that reads
as a point in time is compared by its characters with one that does not, so that texts of both kinds
together need not be in order.
-/

namespace KeyedQuery

/-! ## Orders -/

/-- Of two things in order one is in order with any third one. -/
theorem lt_or_lt_of_compare_eq_lt {α : Type} {cmp : α → α → Ordering} [Std.TransCmp cmp] {a b c : α}
    (h : cmp a c = .lt) : cmp a b = .lt ∨ cmp b c = .lt := by
  by_cases hab : cmp a b = .lt
  · exact .inl hab
  · refine .inr (Std.TransCmp.lt_of_isLE_of_lt ?_ h)
    have hswap : cmp b a = (cmp a b).swap := Std.OrientedCmp.eq_swap
    rw [hswap]
    cases hcmp : cmp a b <;> simp_all

theorem compareText_eq (a b : String) : compareText a b = Ord.compare a b := by
  show _ = compareOfLessAndEq a b
  unfold compareText compareOfLessAndEq
  by_cases hab : a < b
  · rw [if_pos hab, if_pos hab]
  · rw [if_neg hab, if_neg hab]
    by_cases heq : a = b
    · rw [if_neg (heq ▸ hab), if_pos heq]
    · have hba : b < a := Std.lt_of_le_of_ne (Std.not_lt.mp hab) (Ne.symm heq)
      rw [if_pos hba, if_neg heq]

instance : Std.TransCmp compareText := by
  rw [show compareText = Ord.compare from funext fun a => funext (compareText_eq a)]
  infer_instance

instance : Std.TransCmp compareTruth where
  eq_swap := by decide
  isLE_trans := by decide

instance : Std.TransCmp Number.compare :=
  inferInstanceAs (Std.TransCmp (compareOn fun n : Number => n.toBinary64.signedUnits))

theorem Number.compare_swap (m n : Number) : n.compare m = (m.compare n).swap :=
  Std.OrientedCmp.eq_swap

instance : Std.TransCmp Instant.compare :=
  inferInstanceAs (Std.TransCmp (compareLex (compareOn Instant.seconds) (compareOn Instant.nanos)))

namespace Value

/-- What is in order with each other. -/
inductive Kind where
  | number | truth | instant | text
deriving DecidableEq

/-- The kind of a value that can be compared. -/
def kind? : Value → Option Kind
  | .num _ => some .number
  | .bool _ => some .truth
  | .str s => some (if (Instant.read? s).isSome then .instant else .text)
  | .null | .list _ | .map _ => none

theorem compareStrings_swap (a b : String) : compareStrings b a = (compareStrings a b).swap := by
  unfold compareStrings
  cases Instant.read? a <;> cases Instant.read? b
  case some.some s t => exact (Std.OrientedCmp.eq_swap : t.compare s = (s.compare t).swap)
  all_goals exact (Std.OrientedCmp.eq_swap : compareText b a = (compareText a b).swap)

/-- Turned around, a comparison comes out the other way. -/
theorem compare?_swap (v w : Value) : w.compare? v = (v.compare? w).map Ordering.swap := by
  cases v <;> cases w <;> try rfl
  case bool.bool b c =>
    exact congrArg some (Std.OrientedCmp.eq_swap : compareTruth c b = (compareTruth b c).swap)
  case num.num m n => exact congrArg some (Number.compare_swap m n)
  case str.str s t => exact congrArg some (compareStrings_swap s t)

/-- The values of a kind. -/
theorem of_kind?_eq_some {v : Value} {kind : Kind} (h : v.kind? = some kind) :
    match kind with
    | .number => ∃ n, v = .num n
    | .truth => ∃ b, v = .bool b
    | .instant => ∃ s t, v = .str s ∧ Instant.read? s = some t
    | .text => ∃ s, v = .str s ∧ Instant.read? s = none := by
  cases v with
  | bool b =>
    obtain rfl := Option.some.inj h
    exact ⟨b, rfl⟩
  | num n =>
    obtain rfl := Option.some.inj h
    exact ⟨n, rfl⟩
  | str s =>
    cases hread : Instant.read? s with
    | none =>
      obtain rfl : kind = .text := by simpa [kind?, hread] using h.symm
      exact ⟨s, rfl, hread⟩
    | some t =>
      obtain rfl : kind = .instant := by simpa [kind?, hread] using h.symm
      exact ⟨s, t, rfl, hread⟩
  | null | list _ | map _ => cases h

/-- Of two values in order one is in order with any third one of their kind. -/
theorem compare?_split {u v w : Value} {kind : Kind} (hu : u.kind? = some kind)
    (hv : v.kind? = some kind) (hw : w.kind? = some kind) (h : u.compare? w = some .lt) :
    u.compare? v = some .lt ∨ v.compare? w = some .lt := by
  have hu := of_kind?_eq_some hu
  have hv := of_kind?_eq_some hv
  have hw := of_kind?_eq_some hw
  cases kind with
  | number =>
    obtain ⟨⟨a, rfl⟩, ⟨b, rfl⟩, ⟨c, rfl⟩⟩ := And.intro hu (And.intro hv hw)
    simpa [compare?] using lt_or_lt_of_compare_eq_lt (Option.some.inj h)
  | truth =>
    obtain ⟨⟨a, rfl⟩, ⟨b, rfl⟩, ⟨c, rfl⟩⟩ := And.intro hu (And.intro hv hw)
    simpa [compare?] using lt_or_lt_of_compare_eq_lt (Option.some.inj h)
  | instant =>
    obtain ⟨⟨a, s, rfl, ha⟩, ⟨b, t, rfl, hb⟩, ⟨c, r, rfl, hc⟩⟩ := And.intro hu (And.intro hv hw)
    simp only [compare?, compareStrings, ha, hb, hc, Option.some.injEq] at h ⊢
    exact lt_or_lt_of_compare_eq_lt h
  | text =>
    obtain ⟨⟨a, rfl, ha⟩, ⟨b, rfl, hb⟩, ⟨c, rfl, hc⟩⟩ := And.intro hu (And.intro hv hw)
    simp only [compare?, compareStrings, ha, hb, hc, Option.some.injEq] at h ⊢
    exact lt_or_lt_of_compare_eq_lt h

end Value

end KeyedQuery
