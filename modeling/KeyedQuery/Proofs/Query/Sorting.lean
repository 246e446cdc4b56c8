import KeyedQuery.Proofs.Query.Rows
import Mathlib.Data.List.Permutation

/-!
# When rows can be sorted

Any two rows compare, and turned around the comparison comes out the other way
(`SortSpec.compareItems_swap`), but three rows need not fit together. Two timestamps compare as points in
time. A text that is no timestamp compares with either of them by its characters, and so it may come behind
the later one and before the earlier one. Nothing else goes wrong: rows in which no text does this
(`SortSpec.InStep`) are in one order (`SortSpec.Consistent`), every list of them is sorted, and of other rows
there is a list that nobody could sort (`SortSpec.sorts_iff`).
-/

namespace KeyedQuery

/-! ## Texts -/

namespace Value

variable {a b c : String}

/-- Two timestamps with a text that is none between them, by its characters, are in this order in time. -/
def TextsInStep (a u b : String) : Prop :=
  ∀ s t, Instant.read? a = some s → Instant.read? u = none → Instant.read? b = some t →
    a < u → u < b → s.compare t = .lt

theorem compareText_eq_lt_iff : compareText a b = .lt ↔ a < b := by
  unfold compareText
  by_cases hab : a < b
  · simp [hab]
  · by_cases hba : b < a <;> simp [hab, hba]

/-- Texts of which one is no timestamp compare by their characters. -/
theorem compareStrings_of_none (h : Instant.read? a = none ∨ Instant.read? b = none) :
    compareStrings a b = compareText a b := by
  unfold compareStrings
  rcases h with h | h <;> rw [h]
  cases Instant.read? a <;> rfl

/-- A timestamp and a text that is none are not tied. -/
theorem lt_of_compareText_isLE (hread : (Instant.read? a).isSome ≠ (Instant.read? b).isSome)
    (h : (compareText a b).isLE) : a < b := by
  rw [compareText_eq, Ordering.isLE_iff_eq_lt_or_eq_eq] at h
  rcases h with h | h
  · exact compareText_eq_lt_iff.mp (compareText_eq a b ▸ h)
  · exact absurd (congrArg (fun s => (Instant.read? s).isSome) (Std.LawfulEqOrd.eq_of_compare h)) hread

theorem compareText_isLE_of_not_lt (h : ¬b < a) : (compareText a b).isLE := by
  unfold compareText
  rw [if_neg h]
  split <;> rfl

/-- Three texts are in one order, however they compare, if they are in step. -/
theorem compareStrings_trans (habc : TextsInStep a b c) (hbca : TextsInStep b c a)
    (hcab : TextsInStep c a b) (hab : (compareStrings a b).isLE) (hbc : (compareStrings b c).isLE) :
    (compareStrings a c).isLE := by
  have hearlier : ∀ {s t : Instant}, t.compare s = .lt → ¬(s.compare t).isLE := fun {s t} hts => by
    have hswap : s.compare t = (t.compare s).swap := Std.OrientedCmp.eq_swap
    rw [hswap, hts]
    decide
  cases ha : Instant.read? a <;> cases hb : Instant.read? b <;> cases hc : Instant.read? c
  case some.some.some =>
    simp only [compareStrings, ha, hb, hc] at hab hbc ⊢
    exact Std.TransCmp.isLE_trans hab hbc
  -- Of two timestamps and another text, the text stands before, between or behind them.
  case none.some.some s t =>
    rw [compareStrings_of_none (.inl ha)] at hab ⊢
    refine compareText_isLE_of_not_lt fun hca => ?_
    simp only [compareStrings, hb, hc] at hbc
    exact hearlier (hcab t s hc ha hb hca (lt_of_compareText_isLE (by simp [ha, hb]) hab)) hbc
  case some.none.some s t =>
    rw [compareStrings_of_none (.inr hb)] at hab
    rw [compareStrings_of_none (.inl hb)] at hbc
    simp only [compareStrings, ha, hc]
    rw [habc s t ha hb hc (lt_of_compareText_isLE (by simp [ha, hb]) hab)
      (lt_of_compareText_isLE (by simp [hb, hc]) hbc)]
    rfl
  case some.some.none s t =>
    rw [compareStrings_of_none (.inr hc)] at hbc ⊢
    refine compareText_isLE_of_not_lt fun hca => ?_
    simp only [compareStrings, ha, hb] at hab
    exact hearlier (hbca t s hb hc ha (lt_of_compareText_isLE (by simp [hb, hc]) hbc) hca) hab
  all_goals
    rw [compareStrings_of_none (by simp [ha, hb])] at hab
    rw [compareStrings_of_none (by simp [hb, hc])] at hbc
    rw [compareStrings_of_none (by simp [ha, hc])]
    exact Std.TransCmp.isLE_trans hab hbc

/-! ## Values -/

variable {P : String → Prop} {u v w : Value}

theorem typeRank_le_of_compareForSort (h : (u.compareForSort v).isLE) : u.typeRank ≤ v.typeRank :=
  have hplace : SortSpec.typePlace .asc u ≤ SortSpec.typePlace .asc v :=
    SortSpec.typePlace_le (Ordering.isLE_iff_ne_gt.mp h)
  hplace

theorem compareForSort_of_typeRank_lt (h : u.typeRank < v.typeRank) : u.compareForSort v = .lt := by
  have hnone : u.compare? v = none := Option.eq_none_iff_forall_ne_some.mpr fun o ho =>
    absurd (typeRank_eq_of_compare? ho) (Nat.ne_of_lt h)
  rw [compareForSort, hnone, Option.getD_none]
  exact Nat.compare_eq_lt.mpr h

/-- Values are in one order if the texts among them are in step. -/
theorem compareForSort_trans (hstep : ∀ a b c, P a → P b → P c → TextsInStep a b c)
    (hu : ∀ a, u = .str a → P a) (hv : ∀ b, v = .str b → P b) (hw : ∀ c, w = .str c → P c)
    (huv : (u.compareForSort v).isLE) (hvw : (v.compareForSort w).isLE) :
    (u.compareForSort w).isLE := by
  have hrank := typeRank_le_of_compareForSort huv
  have hrank' := typeRank_le_of_compareForSort hvw
  rcases Nat.lt_or_eq_of_le (Nat.le_trans hrank hrank') with hlt | heq
  · rw [compareForSort_of_typeRank_lt hlt]
    rfl
  · have hsame : u.typeRank = v.typeRank := Nat.le_antisymm hrank (heq ▸ hrank')
    cases u <;> cases v <;> simp [typeRank] at hsame <;> cases w <;> simp [typeRank] at heq
    case bool.bool.bool a b c =>
      exact (Std.TransCmp.isLE_trans huv hvw : (compareTruth a c).isLE)
    case num.num.num a b c =>
      exact (Std.TransCmp.isLE_trans huv hvw : (Number.compare a c).isLE)
    case str.str.str a b c =>
      have ha := hu a rfl
      have hb := hv b rfl
      have hc := hw c rfl
      exact compareStrings_trans (hstep _ _ _ ha hb hc) (hstep _ _ _ hb hc ha) (hstep _ _ _ hc ha hb)
        huv hvw
    all_goals rfl

/-- The values of which the texts have a property. -/
abbrev WithTexts (P : String → Prop) : Type := { v : Value // ∀ a, v = .str a → P a }

/-- The comparison of these values. -/
def WithTexts.compare (u v : WithTexts P) : Ordering :=
  u.val.compareForSort v.val

theorem WithTexts.transCmp (hstep : ∀ a b c, P a → P b → P c → TextsInStep a b c) :
    Std.TransCmp (WithTexts.compare : WithTexts P → WithTexts P → Ordering) where
  eq_swap {u v} := compareForSort_swap v.val u.val
  isLE_trans {u v w} := compareForSort_trans hstep u.property v.property w.property

end Value

/-! ## Rows -/

/-- The text is the attribute of one of the rows. -/
def Item.TextAmong (field : String) (rows : List Item) (x : String) : Prop :=
  ∃ row ∈ rows, Fields.get? row field = some (.str x)

namespace SortSpec

variable {s : SortSpec} {rows items sorted : List Item} {a b c : Item}

/-- The texts among the attributes of the rows are in step. -/
def InStep (field : String) (rows : List Item) : Prop :=
  ∀ x y z, Item.TextAmong field rows x → Item.TextAmong field rows y → Item.TextAmong field rows z →
    Value.TextsInStep x y z

/-- The comparison goes on from one pair of the rows to the next. -/
def Consistent (s : SortSpec) (rows : List Item) : Prop :=
  ∀ a ∈ rows, ∀ b ∈ rows, ∀ c ∈ rows, s.compareItems a b ≠ .gt → s.compareItems b c ≠ .gt →
    s.compareItems a c ≠ .gt

/-- The second list has the rows of the first, none before one that it comes behind, and those that compare
equal in their order. -/
structure Sorts (s : SortSpec) (items sorted : List Item) : Prop where
  perm : sorted.Perm items
  ordered : sorted.Pairwise fun a b => s.compareItems a b ≠ .gt
  stable : ∀ a ∈ items,
    (sorted.filter fun b => s.compareItems a b = .eq) = items.filter fun b => s.compareItems a b = .eq

theorem compareItems_of_isMissing (hb : Value.isMissing (Fields.get? b s.field) = true) :
    s.compareItems a b ≠ .gt := by
  unfold compareItems compareAttributes
  rw [hb]
  cases Value.isMissing (Fields.get? a s.field) <;> simp

/-- A row that does not come behind one with a value has a value itself. -/
theorem exists_of_compareItems {w : Value} (hb : Fields.get? b s.field = some w) (hw : w.isNull = false)
    (h : s.compareItems a b ≠ .gt) : ∃ v, Fields.get? a s.field = some v ∧ v.isNull = false ∧
      s.direction.apply (v.compareForSort w) ≠ .gt := by
  unfold compareItems compareAttributes at h
  rw [hb] at h
  cases ha : Fields.get? a s.field with
  | none => simp [ha, Value.isMissing, hw] at h
  | some v =>
    cases hv : v.isNull with
    | true => simp [ha, Value.isMissing, hw, hv] at h
    | false => exact ⟨v, rfl, hv, by simpa [ha, Value.isMissing, hw, hv, Value.ofOption] using h⟩

theorem textAmong_of_get? {v : Value} (ha : a ∈ rows) (hv : Fields.get? a s.field = some v) :
    ∀ x, v = .str x → Item.TextAmong s.field rows x :=
  fun _ hx => ⟨a, ha, hx ▸ hv⟩

/-- Rows of which the texts are in step are in one order. -/
theorem InStep.consistent (h : InStep s.field rows) : s.Consistent rows := by
  intro a ha b hb c hc hab hbc
  cases hmissing : Value.isMissing (Fields.get? c s.field) with
  | true => exact compareItems_of_isMissing hmissing
  | false =>
    obtain ⟨w, hw, hnull⟩ : ∃ w, Fields.get? c s.field = some w ∧ w.isNull = false := by
      cases hc : Fields.get? c s.field with
      | none => simp [hc, Value.isMissing] at hmissing
      | some w => exact ⟨w, rfl, by simpa [hc, Value.isMissing] using hmissing⟩
    obtain ⟨v, hv, hnull', hvw⟩ := exists_of_compareItems hw hnull hbc
    obtain ⟨u, hu, hnull'', huv⟩ := exists_of_compareItems hv hnull' hab
    let u' : Value.WithTexts (Item.TextAmong s.field rows) := ⟨u, textAmong_of_get? ha hu⟩
    let v' : Value.WithTexts (Item.TextAmong s.field rows) := ⟨v, textAmong_of_get? hb hv⟩
    let w' : Value.WithTexts (Item.TextAmong s.field rows) := ⟨w, textAmong_of_get? hc hw⟩
    have htrans := Value.WithTexts.transCmp h
    have huv : s.direction.apply (u'.compare v') ≠ .gt := huv
    have huw : s.direction.apply (u.compareForSort w) ≠ .gt :=
      (s.direction.trans huv hvw : s.direction.apply (u'.compare w') ≠ .gt)
    unfold compareItems compareAttributes
    simpa [hu, hw, Value.isMissing, hnull, hnull'', Value.ofOption] using huw

/-! ## Sorting -/

theorem Consistent.ordersUpToTies (h : s.Consistent rows) :
    OrdersUpToTies (fun a b => decide (s.compareItems a b = .lt)) rows where
  asymm a _ b _ hab := by
    rw [decide_eq_true_eq] at hab
    rw [decide_eq_false_iff_not, s.compareItems_swap a b, hab]
    simp
  split a ha b hb c hc hac := by
    rw [decide_eq_true_eq] at hac
    by_contra hnot
    simp only [decide_eq_true_eq, not_or] at hnot
    have hcb : s.compareItems c b ≠ .gt := by
      rw [s.compareItems_swap b c]
      cases hbc : s.compareItems b c <;> simp_all
    have hba : s.compareItems b a ≠ .gt := by
      rw [s.compareItems_swap a b]
      cases hab : s.compareItems a b <;> simp_all
    have hca := h c hc b hb a ha hcb hba
    rw [s.compareItems_swap a c, hac] at hca
    exact hca rfl

/-- Rows in one order are sorted, whichever of them are to be sorted. -/
theorem Consistent.sorts (h : s.Consistent rows) (hitems : items ⊆ rows) :
    s.Sorts items (s.sortItems items) := by
  have horders := h.ordersUpToTies.of_subset hitems
  refine ⟨stableSort_perm _ _, ?_, fun a ha => ?_⟩
  · refine horders.pairwise_stableSort.imp fun {a b} hba => ?_
    rw [decide_eq_false_iff_not] at hba
    rw [s.compareItems_swap b a]
    cases hcompare : s.compareItems b a <;> simp_all
  · rw [sortItems, ← horders.stableSort_filter]
    refine stableSort_eq_self (List.pairwise_of_forall_mem_list fun c hc b hb => ?_)
    obtain ⟨hb, hab⟩ := List.mem_filter.mp hb
    obtain ⟨hc, hac⟩ := List.mem_filter.mp hc
    rw [decide_eq_true_eq] at hab hac
    have hcb : s.compareItems c b ≠ .gt :=
      h c (hitems hc) a (hitems ha) b (hitems hb) (by rw [s.compareItems_swap a c, hac]; simp)
        (by simp [hab])
    rw [s.compareItems_swap b c] at hcb
    rw [decide_eq_false_iff_not]
    exact fun hbc => hcb (by rw [hbc]; rfl)

theorem compareItems_self (s : SortSpec) (a : Item) : s.compareItems a a = .eq := by
  have hswap := s.compareItems_swap a a
  generalize s.compareItems a a = o at hswap
  cases o <;> first | rfl | cases hswap

/-- If every list of the rows can be sorted, rows in strict order are so for all pairs. -/
theorem compareItems_trans_of_sorts
    (h : ∀ items, items ⊆ rows → ∃ sorted, s.Sorts items sorted) (ha : a ∈ rows) (hb : b ∈ rows)
    (hc : c ∈ rows) (hab : s.compareItems a b = .lt) (hbc : s.compareItems b c = .lt) :
    s.compareItems a c = .lt := by
  have hba : s.compareItems b a = .gt := by rw [s.compareItems_swap a b, hab]; rfl
  have hcb : s.compareItems c b = .gt := by rw [s.compareItems_swap b c, hbc]; rfl
  obtain ⟨sorted, hperm, hordered, hstable⟩ := h [c, a, b] (by simp [ha, hb, hc])
  -- The first row is before the second one and this before the third one in any such list.
  obtain rfl : sorted = [a, b, c] := by
    have hmem : sorted = [c, a, b] ∨ sorted = [a, c, b] ∨ sorted = [b, a, c] ∨ sorted = [a, b, c] ∨
        sorted = [b, c, a] ∨ sorted = [c, b, a] := by
      simpa [List.permutations, List.permutationsAux, List.permutationsAux.rec] using
        List.mem_permutations.mpr hperm
    rcases hmem with rfl | rfl | rfl | rfl | rfl | rfl <;> first | rfl | simp [hba, hcb] at hordered
  have hne : s.compareItems a c ≠ .gt := by
    simp only [List.pairwise_cons, List.mem_cons] at hordered
    exact hordered.1 c (by simp)
  cases hac : s.compareItems a c with
  | lt => rfl
  | gt => exact absurd hac hne
  | eq =>
    -- Rows that are tied would be in their order, the third one before the first one.
    have htied := hstable a (by simp)
    have hac' : a = c := (by simpa [s.compareItems_self a, hab, hac] using htied : a = c ∧ c = a).1
    rw [hac', hcb] at hab
    cases hab

/-- Texts compare in the direction of the sort. -/
theorem compareItems_text {x y : String} (ha : Fields.get? a s.field = some (.str x))
    (hb : Fields.get? b s.field = some (.str y)) :
    s.compareItems a b = s.direction.apply (Value.compareStrings x y) := by
  unfold compareItems
  rw [ha, hb]
  rfl

/-- Rows of which the strict order goes on from one pair to the next have their texts in step. -/
theorem inStep_of_trans
    (h : ∀ a ∈ rows, ∀ b ∈ rows, ∀ c ∈ rows, s.compareItems a b = .lt → s.compareItems b c = .lt →
      s.compareItems a c = .lt) : InStep s.field rows := by
  rintro x y z ⟨a, ha, hx⟩ ⟨b, hb, hy⟩ ⟨c, hc, hz⟩ p q hp hnone hq hxy hyz
  have hlt : Value.compareStrings x y = .lt := by
    rw [Value.compareStrings_of_none (.inr hnone), Value.compareText_eq_lt_iff.mpr hxy]
  have hlt' : Value.compareStrings y z = .lt := by
    rw [Value.compareStrings_of_none (.inl hnone), Value.compareText_eq_lt_iff.mpr hyz]
  have htime : Value.compareStrings x z = p.compare q := by
    simp only [Value.compareStrings, hp, hq]
  rw [← htime]
  cases hdirection : s.direction with
  | asc =>
    have hac := h a ha b hb c hc
    simp only [compareItems_text hx hy, compareItems_text hy hz, compareItems_text hx hz, hdirection,
      SortDirection.apply] at hac
    exact hac hlt hlt'
  | desc =>
    have hca := h c hc b hb a ha
    simp only [compareItems_text hz hy, compareItems_text hy hx, compareItems_text hz hx, hdirection,
      SortDirection.apply, ← Value.compareStrings_swap] at hca
    exact hca hlt' hlt

/-- The comparison of two rows can be turned around, and sorting leaves the rows that there are. The rows
are in one order for all pairs exactly if their texts are in step, and exactly then sorting sorts every list
of them. Otherwise there is a list of them that has no sorted version at all. -/
theorem sorts_iff (s : SortSpec) (rows : List Item) :
    (∀ a b, s.compareItems b a = (s.compareItems a b).swap) ∧
      (∀ items, (s.sortItems items).Perm items) ∧
      (s.Consistent rows ↔ InStep s.field rows) ∧
      ((∀ items, items ⊆ rows → s.Sorts items (s.sortItems items)) ↔ InStep s.field rows) ∧
      ((∀ items, items ⊆ rows → ∃ sorted, s.Sorts items sorted) ↔ InStep s.field rows) := by
  have hsorts : InStep s.field rows → ∀ items, items ⊆ rows → s.Sorts items (s.sortItems items) :=
    fun h items hitems => h.consistent.sorts hitems
  have hinStep : (∀ items, items ⊆ rows → ∃ sorted, s.Sorts items sorted) → InStep s.field rows :=
    fun h => inStep_of_trans fun a ha b hb c hc => compareItems_trans_of_sorts h ha hb hc
  refine ⟨s.compareItems_swap, fun items => stableSort_perm _ items, ⟨fun h => ?_, fun h => h.consistent⟩,
    ⟨fun h => hinStep fun items hitems => ⟨_, h items hitems⟩, hsorts⟩,
    ⟨hinStep, fun h items hitems => ⟨_, hsorts h items hitems⟩⟩⟩
  exact hinStep fun items hitems => ⟨_, h.sorts hitems⟩

/-- A text without an offset between two timestamps of which the latter one is earlier: by its characters it
is behind the one and before the other. -/
theorem not_sorts :
    ¬∀ (s : SortSpec) (items : List Item), s.Sorts items (s.sortItems items) := by
  intro h
  have hordered := (h ⟨"at", .asc⟩ [[("at", .str "2024-01-01T09:00:00Z")],
    [("at", .str "2024-01-01T09:30:00")], [("at", .str "2024-01-01T10:00:00+02:00")]]).ordered
  revert hordered
  decide +kernel

end SortSpec

end KeyedQuery
