import KeyedQuery.Proofs.Loader.Courses
import KeyedQuery.Proofs.Loader.Fetching
import KeyedQuery.Proofs.Plan.Joins

/-!
# What groups identify

Values, keys and loads are told apart by their groups, which are texts. Values of one group agree
(`Value.agrees_of_groupKey_eq`), and keys of one group are equal (`LoadEntry.idOf_injective`). So taking the
first of each group leaves out nothing but repetitions: what is left out stands behind a kept element that is
the same (`OmitsRepeats`). `groups_identify_only_same` follows this through the uses of groups: the elements
of lists, the local values of joins and their partners, the keys of batches, the loads that share an entry,
and the rows that they find.
-/

namespace KeyedQuery

variable {α : Type} {same : α → α → Prop} {group : α → String}

/-- Elements are kept in order, but for those that are the same as one that is kept before them. -/
structure OmitsRepeats (same : α → α → Prop) (thin : List α → List α) : Prop where
  /-- There is nothing to keep at first. -/
  nil : thin [] = []
  /-- An element behind the others is kept as well, unless it is the same as one of those kept. -/
  concat : ∀ before x, thin (before ++ [x]) = thin before ++ [x] ∨
    thin (before ++ [x]) = thin before ∧ ∃ y ∈ thin before, same y x

/-- If elements of one group are the same, the firsts of groups omit only repetitions. -/
theorem OmitsRepeats.of_group (h : ∀ x y, group x = group y → same x y) :
    OmitsRepeats same (distinctBy group) where
  nil := rfl
  concat before x := by
    rw [distinctBy_concat]
    split
    · rename_i hseen
      obtain ⟨y, hy, hyx⟩ := List.mem_map.mp hseen
      obtain ⟨first, hfirst, hgroup⟩ : ∃ first ∈ distinctBy group before, group first = group y :=
        exists_mem_distinctBy hy
      exact .inr ⟨List.append_nil _, first, hfirst, h first x (hgroup.trans hyx)⟩
    · exact .inl rfl

/-! ## Lists and joins -/

/-- Two values are equal as conditions see it. -/
def Value.Agree (v w : Value) : Prop :=
  v.agrees w = true

theorem Value.omitsRepeats_distinct : OmitsRepeats Value.Agree Value.distinct :=
  .of_group fun _ _ => agrees_of_groupKey_eq

/-- The value of one row more is looked up as well, unless it agrees with one of the others. -/
theorem distinctFieldValues_concat {field : String} {row : Item} {v : Value} (rows : List Item)
    (hget : Fields.get? row field = some v) (hnull : v.isNull = false) :
    distinctFieldValues field (rows ++ [row]) = distinctFieldValues field rows ++ [v] ∨
      distinctFieldValues field (rows ++ [row]) = distinctFieldValues field rows ∧
        ∃ w ∈ distinctFieldValues field rows, w.Agree v := by
  have hvalues : distinctFieldValues field (rows ++ [row]) = Value.distinct
      (((rows.filterMap fun item => Fields.get? item field).filter fun v => !v.isNull) ++ [v]) := by
    rw [distinctFieldValues, List.filterMap_append, List.filter_append]
    simp [hget, hnull]
  rw [hvalues]
  exact Value.omitsRepeats_distinct.concat _ v

theorem Item.group?_eq_some_iff {item : Item} {field group : String} :
    Item.group? item field = some group ↔
      ∃ v, Fields.get? item field = some v ∧ v.isNull = false ∧ v.groupKey = group := by
  simp [Item.group?, Option.map_eq_some_iff, Option.filter_eq_some_iff, and_assoc]

/-- A row's partners have a value that agrees with its own, and neither is null. -/
theorem ResolvedJoin.agree_of_mem_partners {j : ResolvedJoin} {targets : List Item} {row item : Item}
    (h : item ∈ j.partners targets row) : ∃ v w, Fields.get? row j.localField = some v ∧
      Fields.get? item j.foreignField = some w ∧ v.isNull = false ∧ w.isNull = false ∧ w.Agree v := by
  unfold partners at h
  split at h
  · rename_i group hgroup
    obtain ⟨v, hv, hvnull, hvgroup⟩ := Item.group?_eq_some_iff.mp hgroup
    obtain ⟨w, hw, hwnull, hwgroup⟩ :=
      Item.group?_eq_some_iff.mp (of_decide_eq_true (List.mem_filter.mp h).2)
    exact ⟨v, w, hv, hw, hvnull, hwnull, Value.agrees_of_groupKey_eq (hwgroup.trans hvgroup.symm)⟩
  · cases h

/-! ## Keys -/

theorem RetryConfig.omitsRepeats_distinctKeys :
    OmitsRepeats (fun key other : Item => key = other) distinctKeys :=
  .of_group fun _ _ h => LoadEntry.idOf_injective h

/-- Who waits in an entry has asked for its key. -/
theorem Course.Reachable.key_eq {c : Course} (h : c.Reachable) {batch : LoadBatch}
    (hbatch : batch ∈ c.loader.batches) {e : LoadEntry} (he : e ∈ batch.entries) {r : Registration}
    (hr : r ∈ c.registered) (hw : r.waiter ∈ e.waiters) : e.key = r.key := by
  have hid := h.sound.filed hbatch he hr hw
  obtain ⟨own, -, -, -, hentries⟩ := h.sound.gathers batch hbatch
  rw [hentries] at he
  obtain ⟨first, -, rfl⟩ := List.mem_map.mp he
  exact LoadEntry.idOf_injective hid

/-- A row that is found under a key has that key. -/
theorem Database.keyOf_of_get?_rowsByKey {keys : KeySchema} {items : List Item} {key row : Item}
    (h : Fields.get? (rowsByKey keys items) (LoadEntry.idOf key) = some row) :
    row ∈ items ∧ keys.keyOf row = .ok key := by
  obtain ⟨item, hitem, hfiled⟩ :=
    List.mem_filterMap.mp ((Fields.get?_merge_eq_some h).resolve_right nofun)
  obtain ⟨own, hown, hpair⟩ := Option.map_eq_some_iff.mp hfiled
  obtain ⟨hid, rfl⟩ := Prod.mk.inj hpair
  refine ⟨hitem, ?_⟩
  cases hkey : keys.keyOf item with
  | ok found =>
    rw [hkey] at hown
    obtain rfl := Option.some.inj hown
    rw [LoadEntry.idOf_injective hid]
  | error name =>
    rw [hkey] at hown
    cases hown

/-! ## All uses of groups -/

/-- Groups never identify what differs. Values of one group agree. Of the elements of a list and of the
local values of a join only those are left out that agree with one that is kept, and of the keys of a batch
only those that are equal to one that is kept. All loads that wait in an entry have asked for its key, a row
that is found under a key has that key, and the partners of a row have a value that agrees with its own. -/
theorem groups_identify_only_same :
    (∀ a b : Value, a.groupKey = b.groupKey → a.agrees b = true) ∧
    (OmitsRepeats Value.Agree (fun xs => (Value.list xs).candidates) ∧
      ∀ (field : String) (rows : List Item) (row : Item) (v : Value), Fields.get? row field = some v →
        v.isNull = false →
          distinctFieldValues field (rows ++ [row]) = distinctFieldValues field rows ++ [v] ∨
          distinctFieldValues field (rows ++ [row]) = distinctFieldValues field rows ∧
            ∃ w ∈ distinctFieldValues field rows, w.Agree v) ∧
    OmitsRepeats (fun key other : Item => key = other) RetryConfig.distinctKeys ∧
    ((∀ c : Course, c.Reachable → ∀ batch ∈ c.loader.batches, ∀ e ∈ batch.entries, ∀ r ∈ c.registered,
        r.waiter ∈ e.waiters → e.key = r.key) ∧
      ∀ (keys : KeySchema) (items : List Item) (key row : Item),
        Fields.get? (Database.rowsByKey keys items) (LoadEntry.idOf key) = some row →
          row ∈ items ∧ keys.keyOf row = .ok key) ∧
    ∀ (j : ResolvedJoin) (targets : List Item) (row item : Item), item ∈ j.partners targets row →
      ∃ v w, Fields.get? row j.localField = some v ∧ Fields.get? item j.foreignField = some w ∧
        v.isNull = false ∧ w.isNull = false ∧ w.Agree v :=
  ⟨fun _ _ => Value.agrees_of_groupKey_eq,
    ⟨Value.omitsRepeats_distinct, fun _ rows _ _ hget hnull => distinctFieldValues_concat rows hget hnull⟩,
    RetryConfig.omitsRepeats_distinctKeys,
    ⟨fun _ h _ hbatch _ he _ hr hw => h.key_eq hbatch he hr hw,
      fun _ _ _ _ => Database.keyOf_of_get?_rowsByKey⟩,
    fun _ _ _ _ => ResolvedJoin.agree_of_mem_partners⟩

/-- A seven with a point is in the group of seven, and its owner is not looked up once more; the text is
apart from both. The user of a load is the user that it has asked for. -/
theorem groups_identify_sevens :
    let seven : Value := .num (.int 7)
    let point : Value := .num (.real (.ofInt 7))
    let user : Item := [("id", .str "7")]
    let owned (v : Value) : Item := [("owner", v)]
    let j : ResolvedJoin :=
      { targetModel := "user", table := "users", keys := { partition := "id" }, relation := .oneToOne,
        localField := "owner", foreignField := "id", cap := 1, label := "owner" }
    seven.agrees point = true ∧
      distinctFieldValues "owner" ([owned seven, owned (.str "7")] ++ [owned point]) = [seven, .str "7"] ∧
      (∃ w ∈ distinctFieldValues "owner" [owned seven, owned (.str "7")], w.Agree point) ∧
      (∃ e ∈ LoadEntry.addWaiter 0 user [], e.waiters = [0] ∧ e.key = user) ∧
      j.keys.keyOf user = .ok user ∧ (Value.str "7").Agree (.str "7") ∧
      j.partners [[("id", seven)], user] (owned (.str "7")) = [user] := by
  intro seven point user owned j
  obtain ⟨hvalues, ⟨-, hjoin⟩, -, ⟨hloads, hrows⟩, hpartners⟩ := groups_identify_only_same
  have hkept : distinctFieldValues "owner" ([owned seven, owned (.str "7")] ++ [owned point]) =
      [seven, .str "7"] := by decide +kernel
  have hreachable : (({} : Course).load ⟨0, "user", user⟩).Reachable := .tail .refl (.load _ (by decide))
  have hfound : j.partners [[("id", seven)], user] (owned (.str "7")) = [user] := by decide +kernel
  refine ⟨hvalues seven point (by decide +kernel), hkept, ?_, ?_, ?_, ?_, hfound⟩
  · rcases hjoin "owner" [owned seven, owned (.str "7")] (owned point) point rfl rfl with h | ⟨-, h⟩
    · exact absurd (hkept.symm.trans h) (by decide +kernel)
    · exact h
  · exact ⟨_, List.mem_singleton_self _, rfl, hloads _ hreachable _ (List.mem_singleton_self _) _
      (List.mem_singleton_self _) _ (List.mem_singleton_self _) (List.mem_singleton_self _)⟩
  · exact (hrows j.keys [user] user user (by decide +kernel)).2
  · obtain ⟨v, w, hv, hw, -, -, hagree⟩ := hpartners j _ _ user (hfound ▸ List.mem_singleton_self _)
    obtain rfl := Option.some.inj hv
    obtain rfl := Option.some.inj hw
    exact hagree

end KeyedQuery
