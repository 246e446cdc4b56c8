import KeyedQuery.Fields
import Mathlib.Data.List.Basic

/-!
# Laws of named fields

Every operation on `Fields` is described by what it does to `Fields.get?`, and ordered fields are
determined by it (`Fields.Ordered.ext`). The equations for `insert` and `erase` need no order;
those for `merge` and `ofList` need that the names put in are different.
-/

namespace KeyedQuery

namespace Fields

variable {α β : Type} {fs gs : Fields α} {k : String} {v : α}

/-! ## Looking up -/

@[simp]
theorem get?_nil : get? ([] : Fields α) k = none :=
  rfl

theorem get?_cons (name : String) (value : α) (rest : Fields α) :
    get? ((name, value) :: rest) k = if name = k then some value else get? rest k :=
  rfl

theorem get?_eq_none_iff : get? fs k = none ↔ k ∉ names fs := by
  induction fs with
  | nil => simp [names]
  | cons field rest ih =>
    obtain ⟨name, value⟩ := field
    by_cases h : name = k
    · simp [get?_cons, names, h]
    · simp [get?_cons, h, ih, names, Ne.symm h]

theorem isSome_get?_iff : (get? fs k).isSome ↔ k ∈ names fs := by
  rw [← not_iff_not, ← get?_eq_none_iff]
  cases get? fs k <;> simp

theorem mem_of_get?_eq_some (h : get? fs k = some v) : (k, v) ∈ fs := by
  induction fs with
  | nil => simp at h
  | cons field rest ih =>
    obtain ⟨name, value⟩ := field
    rw [get?_cons] at h
    split at h
    · rename_i hk
      obtain rfl := Option.some.inj h
      simp [hk]
    · exact List.mem_cons_of_mem _ (ih h)

theorem mem_names_of_mem (h : (k, v) ∈ fs) : k ∈ names fs :=
  List.mem_map_of_mem (f := Prod.fst) h

theorem get?_of_mem_of_nodup (hn : (names fs).Nodup) (h : (k, v) ∈ fs) : get? fs k = some v := by
  induction fs with
  | nil => simp at h
  | cons field rest ih =>
    obtain ⟨name, value⟩ := field
    obtain ⟨hname, hrest⟩ := List.nodup_cons.mp hn
    rw [get?_cons]
    rcases List.mem_cons.mp h with h | h
    · obtain ⟨rfl, rfl⟩ := Prod.mk.inj h
      simp
    · have hne : name ≠ k := fun hk => hname (hk ▸ mem_names_of_mem h)
      rw [if_neg hne, ih hrest h]

/-! ## Inserting and erasing -/

theorem get?_insert (fs : Fields α) (k : String) (v : α) (key : String) :
    get? (insert fs k v) key = if k = key then some v else get? fs key := by
  induction fs with
  | nil => rfl
  | cons field rest ih =>
    obtain ⟨name, value⟩ := field
    unfold insert
    by_cases hname : name = k
    · subst hname
      rw [if_pos rfl, get?_cons, get?_cons]
      split <;> rfl
    · rw [if_neg hname]
      split
      · rfl
      · rw [get?_cons, get?_cons, ih]
        by_cases hk : k = key
        · simp [hk, show name ≠ key from hk ▸ hname]
        · simp [hk]

@[simp]
theorem get?_insert_self (fs : Fields α) (k : String) (v : α) : get? (insert fs k v) k = some v := by
  rw [get?_insert, if_pos rfl]

theorem get?_insert_of_ne (fs : Fields α) (v : α) {k key : String} (h : k ≠ key) :
    get? (insert fs k v) key = get? fs key := by
  rw [get?_insert, if_neg h]

theorem mem_insert {field : String × α} (h : field ∈ insert fs k v) : field = (k, v) ∨ field ∈ fs := by
  induction fs with
  | nil => exact .inl (List.mem_singleton.mp h)
  | cons other rest ih =>
    rw [insert] at h
    split at h
    · rcases List.mem_cons.mp h with rfl | h
      · exact .inl rfl
      · exact .inr (List.mem_cons_of_mem _ h)
    · split at h
      · exact (List.mem_cons.mp h).imp_right id
      · rcases List.mem_cons.mp h with rfl | h
        · exact .inr List.mem_cons_self
        · exact (ih h).imp_right (List.mem_cons_of_mem _)

/-- Of two values put under one name the second stays. -/
theorem insert_insert (fs : Fields α) (k : String) (v w : α) :
    insert (insert fs k v) k w = insert fs k w := by
  induction fs with
  | nil => simp [insert]
  | cons field rest ih =>
    obtain ⟨name, value⟩ := field
    by_cases hname : name = k
    · simp [insert, hname]
    · by_cases hlt : k < name
      · simp [insert, hname, hlt]
      · simp [insert, hname, hlt, ih]

theorem get?_erase (fs : Fields α) (k key : String) :
    get? (erase fs k) key = if k = key then none else get? fs key := by
  induction fs with
  | nil => simp [erase]
  | cons field rest ih =>
    obtain ⟨name, value⟩ := field
    unfold erase at ih ⊢
    by_cases hname : name = k
    · subst hname
      rw [List.filter_cons_of_neg (by simp), ih, get?_cons]
      split <;> simp_all
    · rw [List.filter_cons_of_pos (by simpa using hname), get?_cons, get?_cons, ih]
      by_cases hk : k = key
      · simp [hk, show name ≠ key from hk ▸ hname]
      · simp [hk]

/-- What is put under a name goes with the name. -/
theorem erase_insert (fs : Fields α) (k : String) (v : α) :
    erase (insert fs k v) k = erase fs k := by
  induction fs with
  | nil => simp [insert, erase]
  | cons field rest ih =>
    obtain ⟨name, old⟩ := field
    simp only [erase, ne_eq, decide_not] at ih ⊢
    by_cases hname : name = k
    · simp [insert, hname]
    · by_cases hlt : k < name <;> simp [insert, hname, hlt, ih]

theorem erase_erase (fs : Fields α) (k : String) : erase (erase fs k) k = erase fs k := by
  simp [erase, List.filter_filter]

theorem erase_of_get?_eq_none (h : get? fs k = none) : erase fs k = fs := by
  refine List.filter_eq_self.mpr fun field hfield => ?_
  have hnot := get?_eq_none_iff.mp h
  simp only [ne_eq, decide_eq_true_eq]
  rintro rfl
  exact hnot (List.mem_map_of_mem hfield)

theorem mem_names_insert (fs : Fields α) (k : String) (v : α) (key : String) :
    key ∈ names (insert fs k v) ↔ key = k ∨ key ∈ names fs := by
  rw [← isSome_get?_iff, ← isSome_get?_iff, get?_insert]
  by_cases hk : k = key
  · simp [hk]
  · simp [hk, Ne.symm hk]

/-! ## Order -/

instance (fs : Fields α) : Decidable fs.Ordered :=
  inferInstanceAs (Decidable ((names fs).Pairwise (· < ·)))

@[simp]
theorem ordered_nil : Ordered ([] : Fields α) :=
  List.Pairwise.nil

theorem ordered_cons {name : String} {value : α} {rest : Fields α} :
    Ordered ((name, value) :: rest) ↔ (∀ key ∈ names rest, name < key) ∧ Ordered rest :=
  List.pairwise_cons

theorem Ordered.nodup (h : Ordered fs) : (names fs).Nodup := by
  refine List.Pairwise.imp ?_ h
  rintro a _ hlt rfl
  exact String.lt_irrefl a hlt

theorem Ordered.get?_of_mem (h : Ordered fs) (hm : (k, v) ∈ fs) : get? fs k = some v :=
  get?_of_mem_of_nodup h.nodup hm

theorem Ordered.insert (h : Ordered fs) (k : String) (v : α) : Ordered (fs.insert k v) := by
  induction fs with
  | nil => simp [Fields.insert, ordered_cons, names]
  | cons field rest ih =>
    obtain ⟨name, value⟩ := field
    obtain ⟨hname, hrest⟩ := ordered_cons.mp h
    unfold Fields.insert
    split
    · rename_i hk
      exact ordered_cons.mpr ⟨hk ▸ hname, hrest⟩
    · rename_i hne
      split
      · rename_i hlt
        refine ordered_cons.mpr ⟨fun key hkey => ?_, h⟩
        rcases List.mem_cons.mp hkey with rfl | hkey
        · exact hlt
        · exact String.lt_trans hlt (hname key hkey)
      · rename_i hle
        have hlt : name < k := (Std.lt_trichotomy name k).resolve_right (by simp [hne, hle])
        refine ordered_cons.mpr ⟨fun key hkey => ?_, ih hrest⟩
        rcases (mem_names_insert rest k v key).mp hkey with rfl | hkey
        · exact hlt
        · exact hname key hkey

theorem Ordered.filter (h : Ordered fs) (p : String × α → Bool) : Ordered (fs.filter p) :=
  List.Pairwise.sublist (List.filter_sublist.map _) h

theorem Ordered.erase (h : Ordered fs) (k : String) : Ordered (fs.erase k) :=
  h.filter _

/-- Ordered fields with the same values under all names are the same. -/
theorem Ordered.ext (hf : Ordered fs) (hg : Ordered gs) (h : ∀ k, get? fs k = get? gs k) :
    fs = gs := by
  induction fs generalizing gs with
  | nil =>
    cases gs with
    | nil => rfl
    | cons field rest =>
      have hfirst := h field.1
      rw [get?_cons, if_pos rfl] at hfirst
      simp at hfirst
  | cons field rest ih =>
    obtain ⟨name, value⟩ := field
    cases gs with
    | nil => simpa [get?_cons] using h name
    | cons field' rest' =>
      obtain ⟨name', value'⟩ := field'
      obtain ⟨hname, hrest⟩ := ordered_cons.mp hf
      obtain ⟨hname', hrest'⟩ := ordered_cons.mp hg
      -- the smaller of two different first names would be missing on the other side
      have heq : name = name' := by
        rcases Std.lt_trichotomy name name' with hlt | heq | hlt
        · have hnone : get? ((name', value') :: rest') name = none :=
            get?_eq_none_iff.mpr fun hmem => by
              rcases List.mem_cons.mp hmem with rfl | hmem
              · exact String.lt_irrefl _ hlt
              · exact String.lt_asymm hlt (hname' _ hmem)
          simpa [get?_cons, hnone] using h name
        · exact heq
        · have hnone : get? ((name, value) :: rest) name' = none :=
            get?_eq_none_iff.mpr fun hmem => by
              rcases List.mem_cons.mp hmem with rfl | hmem
              · exact String.lt_irrefl _ hlt
              · exact String.lt_asymm hlt (hname _ hmem)
          simpa [get?_cons, hnone] using (h name').symm
      subst heq
      have hvalue : value = value' := by simpa [get?_cons] using h name
      subst hvalue
      rw [ih hrest hrest' fun k => ?_]
      by_cases hk : name = k
      · subst hk
        rw [get?_eq_none_iff.mpr fun hm => String.lt_irrefl _ (hname _ hm),
          get?_eq_none_iff.mpr fun hm => String.lt_irrefl _ (hname' _ hm)]
      · simpa [get?_cons, hk] using h k

/-- Ordered fields that have the same names have them in the same order. -/
theorem Ordered.names_eq {gs : Fields β} (hf : Ordered fs) (hg : Ordered gs)
    (h : ∀ k, k ∈ names fs ↔ k ∈ names gs) : names fs = names gs :=
  List.Perm.eq_of_pairwise (fun _ _ _ _ hab hba => absurd hba (String.lt_asymm hab)) hf hg
    ((List.perm_ext_iff_of_nodup hf.nodup hg.nodup).mpr h)

/-- A new value replaces the one under its name; up to order the other fields stay. -/
theorem Ordered.insert_perm (h : Ordered fs) (k : String) (v : α) :
    (fs.insert k v).Perm ((k, v) :: fs.erase k) := by
  induction fs with
  | nil => exact .refl _
  | cons field rest ih =>
    obtain ⟨name, value⟩ := field
    obtain ⟨hname, hrest⟩ := ordered_cons.mp h
    have hlater : ∀ key, key ≤ name → Fields.erase rest key = rest := fun key hle =>
      erase_of_get?_eq_none (get?_eq_none_iff.mpr fun hmem => hle (hname key hmem))
    unfold Fields.insert
    split
    · rename_i heq
      rw [Fields.erase, List.filter_cons_of_neg (by simpa using heq)]
      exact .cons _ (.of_eq (hlater k (heq ▸ String.le_refl _)).symm)
    · rename_i hne
      rw [Fields.erase, List.filter_cons_of_pos (by simpa using hne)]
      split
      · rename_i hlt
        exact .cons _ (.cons _ (.of_eq (hlater k (fun hgt => String.lt_asymm hlt hgt)).symm))
      · exact ((ih hrest).cons _).trans (.swap _ _ _)

/-- Up to order, fields are one of them and the others. -/
theorem Ordered.perm_of_get? (h : Ordered fs) (hv : get? fs k = some v) :
    fs.Perm ((k, v) :: fs.erase k) := by
  have hsame : fs.insert k v = fs := (h.insert k v).ext h fun key => by
    rw [get?_insert]
    split
    · rename_i heq
      rw [← heq, hv]
    · rfl
  exact (List.Perm.of_eq hsame.symm).trans (h.insert_perm k v)

/-! ## Merging -/

@[simp]
theorem merge_nil (fs : Fields α) : merge fs [] = fs :=
  rfl

theorem merge_cons (fs : Fields α) (name : String) (value : α) (rest : Fields α) :
    merge fs ((name, value) :: rest) = merge (fs.insert name value) rest :=
  rfl

theorem Ordered.merge (h : Ordered fs) (gs : Fields α) : Ordered (fs.merge gs) := by
  induction gs generalizing fs with
  | nil => exact h
  | cons field rest ih => exact ih (h.insert field.1 field.2)

@[simp]
theorem ordered_ofList (pairs : List (String × α)) : Ordered (ofList pairs) :=
  ordered_nil.merge pairs

theorem get?_merge (hn : (names gs).Nodup) (fs : Fields α) (k : String) :
    get? (merge fs gs) k = (get? gs k).or (get? fs k) := by
  induction gs generalizing fs with
  | nil => rfl
  | cons field rest ih =>
    obtain ⟨name, value⟩ := field
    obtain ⟨hname, hrest⟩ := List.nodup_cons.mp hn
    rw [merge_cons, ih hrest, get?_insert, get?_cons]
    split
    · rename_i hk
      rw [get?_eq_none_iff.mpr (hk ▸ hname)]
      rfl
    · rfl

theorem get?_ofList {pairs : Fields α} (hn : (names pairs).Nodup) (k : String) :
    get? (ofList pairs) k = get? pairs k := by
  rw [ofList, get?_merge hn]
  simp

theorem mem_names_merge (fs gs : Fields α) (k : String) :
    k ∈ names (merge fs gs) ↔ k ∈ names fs ∨ k ∈ names gs := by
  induction gs generalizing fs with
  | nil => simp [names]
  | cons field rest ih =>
    obtain ⟨name, value⟩ := field
    rw [merge_cons, ih, mem_names_insert]
    simp only [names, List.map_cons, List.mem_cons]
    tauto

theorem mem_names_ofList (pairs : Fields α) (k : String) : k ∈ names (ofList pairs) ↔ k ∈ names pairs := by
  rw [ofList, mem_names_merge]
  simp [names]

/-- A merged value comes from one of the two sides. -/
theorem get?_merge_eq_some (h : get? (merge fs gs) k = some v) :
    (k, v) ∈ gs ∨ get? fs k = some v := by
  induction gs generalizing fs with
  | nil => exact Or.inr h
  | cons field rest ih =>
    obtain ⟨name, value⟩ := field
    rcases ih h with hm | hg
    · exact Or.inl (List.mem_cons_of_mem _ hm)
    · rw [get?_insert] at hg
      split at hg
      · rename_i hk
        obtain rfl := Option.some.inj hg
        exact Or.inl (hk ▸ List.mem_cons_self)
      · exact Or.inr hg

end Fields

end KeyedQuery
