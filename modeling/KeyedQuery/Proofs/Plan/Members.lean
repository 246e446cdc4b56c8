import KeyedQuery.Proofs.Plan.Rows

/-!
# Rows in the order of a list

A membership in a list is to reach every row whose attribute agrees with a value of the list, each of
them once and in the order of the first value that it agrees with (`ListsInOrder`). The values are told
apart by their groups, the rows by agreement, and these are not the same: values of two groups can
agree. A row that agrees with both is reached twice, and only then (`listsInOrder_flatMap_iff`). A batch
get puts its rows into the order of the list by their own groups, so rows whose own group is not in the
list come last (`listsInOrder_batchRows_iff`).
-/

namespace KeyedQuery

variable {field : String} {xs : List Value} {items : List Item} {item a b : Item} {v w : Value}

/-! ## Order of a list -/

/-- The position of the first value with which the attribute agrees; behind all values if it agrees
with none. -/
def memberPosition (field : String) (xs : List Value) (item : Item) : Nat :=
  xs.findIdx fun x => fieldAgrees field x item

/-- The position of the first value of a group. -/
def groupPosition (xs : List Value) (group : String) : Nat :=
  xs.findIdx fun x => x.groupKey = group

/-- The rows are those whose attribute agrees with a value of the list, each of them once, in the order
of the first value that they agree with. -/
structure ListsInOrder (field : String) (xs : List Value) (items rows : List Item) : Prop where
  perm : rows.Perm (items.filter fun item => xs.any fun x => fieldAgrees field x item)
  ordered : rows.Pairwise fun a b => memberPosition field xs a ≤ memberPosition field xs b

/-- Values that agree with the attribute of one row are of one group. -/
def Separates (field : String) (xs : List Value) (items : List Item) : Prop :=
  ∀ item ∈ items, ∀ v ∈ xs, ∀ w ∈ xs, fieldAgrees field v item = true →
    fieldAgrees field w item = true → v.groupKey = w.groupKey

/-- The list has a value of the group of the row's own. -/
def HasGroupOf (field : String) (xs : List Value) (item : Item) : Prop :=
  ∃ v, Fields.get? item field = some v ∧ ∃ x ∈ xs, x.groupKey = v.groupKey

/-- A row whose group is in the list stands in front only of such rows. -/
def GroupsFirst (field : String) (xs : List Value) (items : List Item) : Prop :=
  ∀ a ∈ items, ∀ b ∈ items, memberPosition field xs a < memberPosition field xs b →
    HasGroupOf field xs b → HasGroupOf field xs a

theorem fieldAgrees_of_groupKey_eq (h : fieldAgrees field v item = true)
    (hgroup : w.groupKey = v.groupKey) : fieldAgrees field w item = true := by
  obtain ⟨u, hu, huv⟩ := Option.any_eq_true _ _ |>.mp h
  exact Option.any_eq_true _ _ |>.mpr
    ⟨u, hu, Value.agrees_trans huv (Value.agrees_of_groupKey_eq hgroup.symm)⟩

theorem fieldAgrees_of_get? (h : Fields.get? item field = some v) (hgroup : w.groupKey = v.groupKey) :
    fieldAgrees field w item = true := by
  rw [fieldAgrees, h]
  exact Value.agrees_symm (Value.agrees_of_groupKey_eq hgroup)

theorem any_fieldAgrees_distinct (field : String) (xs : List Value) (item : Item) :
    ((Value.distinct xs).any fun x => fieldAgrees field x item) =
      xs.any fun x => fieldAgrees field x item := by
  unfold fieldAgrees
  cases Fields.get? item field with
  | none => rw [List.any_eq_false.mpr (by simp), List.any_eq_false.mpr (by simp)]
  | some v => exact any_agrees_distinct v xs

/-- An attribute that agrees with values of one group agrees first with the first of them. -/
theorem Separates.memberPosition_eq (h : Separates field xs items) (hitem : item ∈ items)
    (hv : v ∈ xs) (hagrees : fieldAgrees field v item = true) :
    memberPosition field xs item = groupPosition xs v.groupKey := by
  have hsame : ∀ x ∈ xs, fieldAgrees field x item = decide (x.groupKey = v.groupKey) :=
    fun x hx => Bool.eq_iff_iff.mpr
      ⟨fun hxitem => decide_eq_true (h item hitem x hx v hv hxitem hagrees),
        fun hgroup => fieldAgrees_of_groupKey_eq hagrees (of_decide_eq_true hgroup)⟩
  unfold memberPosition groupPosition
  clear h hv
  induction xs with
  | nil => rfl
  | cons x xs ih =>
    rw [List.findIdx_cons, List.findIdx_cons, hsame x List.mem_cons_self,
      ih fun y hy => hsame y (List.mem_cons_of_mem x hy)]

/-- The distinct values stand in the order of their groups. -/
theorem pairwise_groupPosition (xs : List Value) : (Value.distinct xs).Pairwise fun v w =>
    groupPosition xs v.groupKey < groupPosition xs w.groupKey :=
  pairwise_findIdx_distinctBy xs

/-- Exact values separate all rows, and a row that agrees with one has its group. -/
theorem separates_of_isExact (hexact : ∀ x ∈ xs, x.IsExact) (items : List Item) :
    Separates field xs items ∧ GroupsFirst field xs items := by
  have hgroup : ∀ {item : Item} {u x : Value}, Fields.get? item field = some u → x ∈ xs →
      fieldAgrees field x item = true → u.groupKey = x.groupKey := by
    intro item u x hu hx hagrees
    rw [fieldAgrees, hu] at hagrees
    exact (Value.groupKey_eq_iff (hexact x hx)).mpr hagrees
  refine ⟨fun item _ v hv w hw hvitem hwitem => ?_, fun a _ b _ hlt _ => ?_⟩
  · obtain ⟨u, hu, -⟩ := Option.any_eq_true _ _ |>.mp hvitem
    exact (hgroup hu hv hvitem).symm.trans (hgroup hu hw hwitem)
  · have hfound : memberPosition field xs a < xs.length := hlt.trans_le List.findIdx_le_length
    obtain ⟨x, hx, hagrees⟩ := List.findIdx_lt_length.mp hfound
    obtain ⟨u, hu, -⟩ := Option.any_eq_true _ _ |>.mp hagrees
    exact ⟨u, hu, x, hx, (hgroup hu hx hagrees).symm⟩

/-! ## Value by value -/

section Parts

variable {part : Value → List Item}

theorem mem_flatMap_distinct (hpart : ∀ v, (part v).Perm (items.filter (fieldAgrees field v))) :
    item ∈ (Value.distinct xs).flatMap part ↔
      item ∈ items ∧ (xs.any fun x => fieldAgrees field x item) = true := by
  rw [← any_fieldAgrees_distinct, List.mem_flatMap, List.any_eq_true]
  constructor
  · rintro ⟨v, hv, hmem⟩
    obtain ⟨hitem, hagrees⟩ := List.mem_filter.mp ((hpart v).mem_iff.mp hmem)
    exact ⟨hitem, v, hv, hagrees⟩
  · rintro ⟨hitem, v, hv, hagrees⟩
    exact ⟨v, hv, (hpart v).mem_iff.mpr (List.mem_filter.mpr ⟨hitem, hagrees⟩)⟩

/-- The rows of the distinct values are reached once exactly if the values are told apart. -/
theorem nodup_flatMap_distinct_iff (hnodup : items.Nodup)
    (hpart : ∀ v, (part v).Perm (items.filter (fieldAgrees field v))) :
    ((Value.distinct xs).flatMap part).Nodup ↔ Separates field xs items := by
  have hparts : ∀ v ∈ Value.distinct xs, (part v).Nodup :=
    fun v _ => (hpart v).nodup_iff.mpr (hnodup.filter _)
  have hmem : ∀ v item, item ∈ part v ↔ item ∈ items ∧ fieldAgrees field v item = true :=
    fun v item => by rw [(hpart v).mem_iff, List.mem_filter]
  rw [List.nodup_flatMap, and_iff_right hparts]
  constructor
  · intro hdisjoint item hitem v hv w hw hvitem hwitem
    obtain ⟨v', hv', hvgroup⟩ : ∃ y ∈ Value.distinct xs, y.groupKey = v.groupKey :=
      exists_mem_distinctBy hv
    obtain ⟨w', hw', hwgroup⟩ : ∃ y ∈ Value.distinct xs, y.groupKey = w.groupKey :=
      exists_mem_distinctBy hw
    have hsymm : Std.Symm fun v w => (part v).Disjoint (part w) := ⟨fun _ _ h => h.symm⟩
    have heq : v' = w' := by
      by_contra hne
      exact hdisjoint.forall hv' hw' hne
        ((hmem v' item).mpr ⟨hitem, fieldAgrees_of_groupKey_eq hvitem hvgroup⟩)
        ((hmem w' item).mpr ⟨hitem, fieldAgrees_of_groupKey_eq hwitem hwgroup⟩)
    rw [← hvgroup, heq, hwgroup]
  · intro hseparates
    refine (pairwise_distinctBy xs).imp_of_mem fun {v w} hv hw hne item hvitem hwitem => hne ?_
    obtain ⟨hitem, hvitem⟩ := (hmem v item).mp hvitem
    exact hseparates item hitem v (mem_of_mem_distinctBy hv) w (mem_of_mem_distinctBy hw) hvitem
      ((hmem w item).mp hwitem).2

theorem perm_flatMap_distinct_iff (hnodup : items.Nodup)
    (hpart : ∀ v, (part v).Perm (items.filter (fieldAgrees field v))) :
    ((Value.distinct xs).flatMap part).Perm
        (items.filter fun item => xs.any fun x => fieldAgrees field x item) ↔
      Separates field xs items := by
  rw [← nodup_flatMap_distinct_iff hnodup hpart]
  constructor
  · exact fun hperm => hperm.nodup_iff.mpr (hnodup.filter _)
  · intro hrows
    rw [List.perm_ext_iff_of_nodup hrows (hnodup.filter _)]
    intro item
    rw [mem_flatMap_distinct hpart, List.mem_filter]

theorem Separates.memberPosition_of_mem (h : Separates field xs items)
    (hpart : ∀ v, (part v).Perm (items.filter (fieldAgrees field v))) (hv : v ∈ Value.distinct xs)
    (hitem : item ∈ part v) : memberPosition field xs item = groupPosition xs v.groupKey := by
  obtain ⟨hitem, hagrees⟩ := List.mem_filter.mp ((hpart v).mem_iff.mp hitem)
  exact h.memberPosition_eq hitem (mem_of_mem_distinctBy hv) hagrees

/-- Rows of distinct values follow each other in the order of the list. -/
theorem Separates.pairwise_distinct (h : Separates field xs items)
    (hpart : ∀ v, (part v).Perm (items.filter (fieldAgrees field v))) :
    (Value.distinct xs).Pairwise fun v w => ∀ a ∈ part v, ∀ b ∈ part w,
      memberPosition field xs a < memberPosition field xs b := by
  refine (pairwise_groupPosition xs).imp_of_mem fun {v w} hv hw hvw a ha b hb => ?_
  rw [h.memberPosition_of_mem hpart hv ha, h.memberPosition_of_mem hpart hw hb]
  exact hvw

/-- Queries for the distinct values list the rows in order exactly if the values are told apart. -/
theorem listsInOrder_flatMap_iff (hnodup : items.Nodup)
    (hpart : ∀ v, (part v).Perm (items.filter (fieldAgrees field v))) :
    ListsInOrder field xs items ((Value.distinct xs).flatMap part) ↔ Separates field xs items := by
  refine ⟨fun h => (perm_flatMap_distinct_iff hnodup hpart).mp h.perm, fun h =>
    ⟨(perm_flatMap_distinct_iff hnodup hpart).mpr h, ?_⟩⟩
  rw [List.pairwise_flatMap]
  refine ⟨fun v hv => List.pairwise_of_forall_mem_list fun a ha b hb => ?_,
    (h.pairwise_distinct hpart).imp fun hlt a ha b hb => Nat.le_of_lt (hlt a ha b hb)⟩
  rw [h.memberPosition_of_mem hpart hv ha, h.memberPosition_of_mem hpart hv hb]

end Parts

/-! ## In a batch -/

/-- The distinct values keep the order of their groups. -/
theorem groupPosition_lt {g h : String} (hh : ∃ x ∈ xs, x.groupKey = h)
    (hlt : groupPosition (Value.distinct xs) g < groupPosition (Value.distinct xs) h) :
    groupPosition xs g < groupPosition xs h := by
  obtain ⟨x, hx, rfl⟩ := hh
  obtain ⟨y, hy, hgroup⟩ : ∃ y ∈ Value.distinct xs, y.groupKey = x.groupKey :=
    exists_mem_distinctBy hx
  have hlength : groupPosition (Value.distinct xs) x.groupKey < (Value.distinct xs).length :=
    List.findIdx_lt_length_of_exists ⟨y, hy, by simpa using hgroup⟩
  have hkey : ∀ {g : String} (hg : groupPosition (Value.distinct xs) g < (Value.distinct xs).length),
      (Value.distinct xs)[groupPosition (Value.distinct xs) g].groupKey = g :=
    fun hg => of_decide_eq_true (List.findIdx_getElem (w := hg))
  have hpairs := List.pairwise_iff_getElem.mp (pairwise_groupPosition xs) _ _ (hlt.trans hlength)
    hlength hlt
  rwa [hkey (hlt.trans hlength), hkey hlength] at hpairs

/-- The position of a row in a batch is that of its group among the distinct values. -/
theorem HasGroupOf.exists_group (h : HasGroupOf field xs item) (hseparates : Separates field xs items)
    (hitem : item ∈ items) : ∃ x ∈ xs,
      Plan.rank field (Value.distinct xs) item = groupPosition (Value.distinct xs) x.groupKey ∧
      memberPosition field xs item = groupPosition xs x.groupKey := by
  obtain ⟨v, hv, x, hx, hgroup⟩ := h
  refine ⟨x, hx, ?_, hseparates.memberPosition_eq hitem hx (fieldAgrees_of_get? hv hgroup)⟩
  rw [Plan.rank, hv, groupPosition, hgroup]

theorem HasGroupOf.memberPosition_lt (h : HasGroupOf field xs item) :
    memberPosition field xs item < xs.length := by
  obtain ⟨v, hv, x, hx, hgroup⟩ := h
  exact List.findIdx_lt_length_of_exists ⟨x, hx, fieldAgrees_of_get? hv hgroup⟩

theorem rank_lt_length (h : HasGroupOf field xs item) :
    Plan.rank field (Value.distinct xs) item < (Value.distinct xs).length := by
  obtain ⟨v, hv, x, hx, hgroup⟩ := h
  obtain ⟨y, hy, hxy⟩ : ∃ y ∈ Value.distinct xs, y.groupKey = x.groupKey :=
    exists_mem_distinctBy hx
  rw [Plan.rank, hv]
  exact List.findIdx_lt_length_of_exists ⟨y, hy, by simpa using hxy.trans hgroup⟩

theorem rank_eq_length (h : ¬HasGroupOf field xs item) :
    Plan.rank field (Value.distinct xs) item = (Value.distinct xs).length := by
  unfold Plan.rank
  split
  · rename_i v hv
    refine List.findIdx_eq_length.mpr fun w hw => ?_
    simpa using fun hgroup => h ⟨v, hv, w, mem_of_mem_distinctBy hw, hgroup⟩
  · rfl

theorem rank_le_length (item : Item) :
    Plan.rank field (Value.distinct xs) item ≤ (Value.distinct xs).length := by
  by_cases h : HasGroupOf field xs item
  · exact Nat.le_of_lt (rank_lt_length h)
  · exact (rank_eq_length h).le

/-- The rows of the distinct values in the order in which a batch get leaves them. -/
def batchRows (field : String) (xs : List Value) (items : List Item) : List Item :=
  Plan.inOrderOf field (Value.distinct xs)
    ((Value.distinct xs).flatMap fun v => items.filter (fieldAgrees field v))

theorem batchRows_perm (field : String) (xs : List Value) (items : List Item) :
    (batchRows field xs items).Perm
      ((Value.distinct xs).flatMap fun v => items.filter (fieldAgrees field v)) :=
  stableSort_perm _ _

theorem mem_batchRows : item ∈ batchRows field xs items ↔
    item ∈ items ∧ (xs.any fun x => fieldAgrees field x item) = true :=
  (batchRows_perm field xs items).mem_iff.trans (mem_flatMap_distinct fun _ => .refl _)

theorem perm_batchRows_iff (hnodup : items.Nodup) : (batchRows field xs items).Perm
    (items.filter fun item => xs.any fun x => fieldAgrees field x item) ↔
      Separates field xs items := by
  rw [← perm_flatMap_distinct_iff hnodup fun v => .refl _]
  exact ⟨(batchRows_perm field xs items).symm.trans, (batchRows_perm field xs items).trans⟩

/-- The rows of a batch are sorted by rank. Those of one rank keep the order of the list, as they come
value by value and each value has at most one row. -/
theorem Separates.pairwise_batchRows (h : Separates field xs items)
    (hone : ∀ v, (items.filter (fieldAgrees field v)).length ≤ 1) :
    (batchRows field xs items).Pairwise fun a b =>
      Plan.rank field (Value.distinct xs) a < Plan.rank field (Value.distinct xs) b ∨
        Plan.rank field (Value.distinct xs) a = Plan.rank field (Value.distinct xs) b ∧
          memberPosition field xs a < memberPosition field xs b := by
  refine pairwise_stableSort (List.pairwise_flatMap.mpr
    ⟨fun v _ => ?_, h.pairwise_distinct fun _ => .refl _⟩)
  generalize hrows : items.filter (fieldAgrees field v) = rows
  have hlength := hrows ▸ hone v
  match rows, hlength with
  | [], _ => exact .nil
  | [row], _ => exact List.pairwise_singleton _ row

theorem or_of_pairwise {R : Item → Item → Prop} {rows : List Item} (h : rows.Pairwise R)
    (ha : a ∈ rows) (hb : b ∈ rows) (hne : a ≠ b) : R a b ∨ R b a := by
  have hsymm : Std.Symm fun a b => R a b ∨ R b a := ⟨fun _ _ h => h.symm⟩
  have heither : rows.Pairwise fun a b => R a b ∨ R b a := h.imp .inl
  exact heither.forall ha hb hne

/-- If a batch is in the order of the list, its rows without a group in the list stand behind the
others in the list as well. -/
theorem ListsInOrder.groupsFirst (h : ListsInOrder field xs items (batchRows field xs items))
    (hseparates : Separates field xs items)
    (hone : ∀ v, (items.filter (fieldAgrees field v)).length ≤ 1) : GroupsFirst field xs items := by
  intro a ha b hb hlt hgroup
  by_contra hnone
  have hposition := hgroup.memberPosition_lt
  have hrank : Plan.rank field (Value.distinct xs) b < Plan.rank field (Value.distinct xs) a :=
    rank_eq_length hnone ▸ rank_lt_length hgroup
  have hmem : ∀ {item}, item ∈ items → memberPosition field xs item < xs.length →
      item ∈ batchRows field xs items := fun hitem hlt =>
    mem_batchRows.mpr ⟨hitem, List.any_eq_true.mpr (List.findIdx_lt_length.mp hlt)⟩
  -- a is behind b by its rank, and in front of it by its position
  have hne : a ≠ b := fun heq => Nat.lt_irrefl _ (heq ▸ hlt)
  rcases or_of_pairwise ((hseparates.pairwise_batchRows hone).and h.ordered)
    (hmem ha (hlt.trans hposition)) (hmem hb hposition) hne with ⟨habove, -⟩ | ⟨-, hle⟩ <;> omega

theorem Separates.ordered_batchRows (h : Separates field xs items)
    (hone : ∀ v, (items.filter (fieldAgrees field v)).length ≤ 1)
    (hfirst : GroupsFirst field xs items) :
    (batchRows field xs items).Pairwise fun a b =>
      memberPosition field xs a ≤ memberPosition field xs b := by
  refine (h.pairwise_batchRows hone).imp_of_mem fun {a b} ha hb hab => ?_
  have ha := (mem_batchRows.mp ha).1
  have hb := (mem_batchRows.mp hb).1
  rcases hab with hrank | ⟨-, hlt⟩
  · have ha' : HasGroupOf field xs a := by
      by_contra hnone
      rw [rank_eq_length hnone] at hrank
      exact absurd (rank_le_length b) (Nat.not_le.mpr hrank)
    by_cases hb' : HasGroupOf field xs b
    · obtain ⟨x, hx, hrankx, hposx⟩ := ha'.exists_group h ha
      obtain ⟨y, hy, hranky, hposy⟩ := hb'.exists_group h hb
      rw [hrankx, hranky] at hrank
      rw [hposx, hposy]
      exact Nat.le_of_lt (groupPosition_lt ⟨y, hy, rfl⟩ hrank)
    · exact Nat.le_of_not_lt fun hlt => hb' (hfirst b hb a ha hlt ha')
  · exact Nat.le_of_lt hlt

/-- A batch get of the distinct values, of which each has at most one row, lists the rows in order
exactly if the values are told apart and rows whose group is in the list come before the others. -/
theorem listsInOrder_batchRows_iff (hnodup : items.Nodup)
    (hone : ∀ v, (items.filter (fieldAgrees field v)).length ≤ 1) :
    ListsInOrder field xs items (batchRows field xs items) ↔
      Separates field xs items ∧ GroupsFirst field xs items := by
  constructor
  · intro h
    have hseparates := (perm_batchRows_iff hnodup).mp h.perm
    exact ⟨hseparates, h.groupsFirst hseparates hone⟩
  · rintro ⟨h, hfirst⟩
    exact ⟨(perm_batchRows_iff hnodup).mpr h, h.ordered_batchRows hone hfirst⟩

end KeyedQuery
