import KeyedQuery.Proofs.Patch.Locality

/-!
# Edits of one row

An `Edit` is a patch for a row with the change that comes of it and the row after it. Two edits of
different attributes do not get in each other's way: once none, one or both of them have been carried
out, the row is a blend of the rows that they leave alone (`Item.Blends`), and an edit that is still to
come finds its change again and leads to the next blend (`Item.Blends.between_eq`,
`Item.Blends.exists_update`).
-/

namespace KeyedQuery

/-- A patch for a row that is nested as deep as patches go, and the row after it. -/
structure Edit (keys : KeySchema) (row : Item) where
  /-- The attributes to be put over the row. -/
  patch : Item
  /-- The change that comes of it. -/
  change : Patch
  /-- The row after the change. -/
  result : Item
  nodup : (Fields.names patch).Nodup
  between_eq : Patch.between row (keys.patched row patch) = .ok change
  update_eq : Item.update change.attributes change.expression row = .ok result
  nested : result.NestedOutside []

namespace Edit

variable {keys : KeySchema} {row item : Item}

/-- The attributes that an edit changes. -/
def names (e : Edit keys row) : List String :=
  keys.patchedNames e.patch

theorem not_mem_names (e : Edit keys row) {k : String} (hk : k ∈ keys.attributes) : k ∉ e.names := by
  intro hmem
  obtain ⟨field, hfield, rfl⟩ := List.mem_map.mp hmem
  exact of_decide_eq_true (List.mem_filter.mp hfield).2 hk

theorem confined (e : Edit keys row) :
    Confined e.names (Item.update e.change.attributes e.change.expression) :=
  Patch.confined_update_patched e.nodup e.between_eq e.update_eq

/-- The row before the edit is not nested too deep where the edit leaves it alone. -/
theorem nestedOutside (e : Edit keys row) : row.NestedOutside e.names :=
  Patch.nestedOutside_of_between e.nodup e.between_eq

end Edit

/-- The row after the given ones of two edits: each of them has left its attributes as it leaves them
alone, and the others are as they were. -/
structure Item.Blends {keys : KeySchema} (row : Item) (e f : Edit keys row) (first second : Bool)
    (item : Item) : Prop where
  first : item.SameOn e.names (if first then e.result else row)
  second : item.SameOn f.names (if second then f.result else row)
  others : ∀ k, k ∉ e.names → k ∉ f.names → Fields.get? item k = Fields.get? row k
  ordered : Fields.Ordered row → Fields.Ordered item

namespace Item.Blends

variable {keys : KeySchema} {row item : Item} {e f : Edit keys row} {first second : Bool}

theorem refl (row : Item) (e f : Edit keys row) : row.Blends e f false false row :=
  ⟨fun _ _ => rfl, fun _ _ => rfl, fun _ _ _ => rfl, id⟩

theorem symm (h : row.Blends e f first second item) : row.Blends f e second first item :=
  ⟨h.second, h.first, fun k hf he => h.others k he hf, h.ordered⟩

/-- Key attributes stay as they are. -/
theorem get?_key (h : row.Blends e f first second item) {k : String} (hk : k ∈ keys.attributes) :
    Fields.get? item k = Fields.get? row k :=
  h.others k (e.not_mem_names hk) (f.not_mem_names hk)

/-- Whatever the other edit has left is not nested too deep for an edit. -/
theorem nestedOutside (h : row.Blends e f first second item) : item.NestedOutside e.names := by
  intro k hk v hv
  by_cases hf : k ∈ f.names
  · rw [h.second k hf] at hv
    split at hv
    · exact f.nested k List.not_mem_nil v hv
    · exact e.nestedOutside k hk v hv
  · rw [h.others k hk hf] at hv
    exact e.nestedOutside k hk v hv

/-- An edit that is still to come finds its change again. -/
theorem between_eq (h : row.Blends e f false second item) :
    Patch.between item (keys.patched item e.patch) = .ok e.change :=
  Patch.between_eq_of_sameOn e.nodup e.between_eq (fun k hk => (h.first k hk).symm) h.nestedOutside

/-- An edit that is carried out leads to the row after it too. -/
theorem exists_update (h : row.Blends e f false second item) (hdisjoint : e.names.Disjoint f.names) :
    ∃ next, Item.update e.change.attributes e.change.expression item = .ok next ∧
      row.Blends e f true second next := by
  obtain ⟨next, hnext, hsame⟩ := e.confined.same (fun k hk => (h.first k hk).symm) e.update_eq
  refine ⟨next, hnext, fun k hk => (hsame k hk).symm, fun k hk => ?_, fun k he hf => ?_, fun hrow => ?_⟩
  · rw [e.confined.others hnext k fun he => hdisjoint he hk]
    exact h.second k hk
  · rw [e.confined.others hnext k he, h.others k he hf]
  · exact e.confined.ordered hnext (h.ordered hrow)

/-- After both edits each attribute is known. -/
theorem get?_eq (h : row.Blends e f true true item) (k : String) : Fields.get? item k =
    if k ∈ e.names then Fields.get? e.result k
    else if k ∈ f.names then Fields.get? f.result k
    else Fields.get? row k := by
  split
  · rename_i he
    exact h.first k he
  · rename_i he
    split
    · rename_i hf
      exact h.second k hf
    · rename_i hf
      exact h.others k he hf

end Item.Blends

end KeyedQuery
