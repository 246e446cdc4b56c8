import KeyedQuery.Proofs.Fields
import KeyedQuery.Proofs.Value.Agreement
import KeyedQuery.Store.Table
import Mathlib.Data.List.Pairwise

/-!
# Rows and their keys

A row has a key if it agrees with each of the key's attributes. Rows that carry all key attributes
have each other's keys or do not (`Table.sameKey_symm`), and of a table whose rows have different
keys (`Table.WellKeyed`) at most one row has a given key (`Table.find?_eq_some_iff`).
-/

namespace KeyedQuery

variable {t : Table} {a b c item key : Item}

/-! ## Keys of rows -/

theorem Fields.get?_merge_of_agree {α : Type} {gs : Fields α} {f : String → Option α}
    (h : ∀ k v, (k, v) ∈ gs → f k = some v) : ∀ (fs : Fields α) (k : String),
      get? (merge fs gs) k = if k ∈ names gs then f k else get? fs k := by
  induction gs with
  | nil => simp [names]
  | cons field rest ih =>
    obtain ⟨name, value⟩ := field
    intro fs k
    rw [merge_cons, ih (fun k v hkv => h k v (List.mem_cons_of_mem _ hkv)), get?_insert]
    have hnames : k ∈ names ((name, value) :: rest) ↔ k = name ∨ k ∈ names rest := List.mem_cons
    by_cases hname : name = k
    · subst hname
      simp [hnames, h name value List.mem_cons_self]
    · simp [hnames, hname, Ne.symm hname]

theorem Table.get?_keyOf (t : Table) (item : Item) (k : String) :
    Fields.get? (t.keyOf item) k = if k ∈ t.keys.attributes then Fields.get? item k else none := by
  have hpairs : ∀ l v, (l, v) ∈ (t.keys.attributes.filterMap fun l =>
      (Fields.get? item l).map fun v => (l, v)) → Fields.get? item l = some v := by
    intro l v hmem
    obtain ⟨l', -, hl'⟩ := List.mem_filterMap.mp hmem
    obtain ⟨w, hw, hpair⟩ := Option.map_eq_some_iff.mp hl'
    obtain ⟨rfl, rfl⟩ := Prod.mk.inj hpair
    exact hw
  rw [keyOf, Fields.ofList, Fields.get?_merge_of_agree hpairs]
  by_cases hk : k ∈ t.keys.attributes
  · cases hv : Fields.get? item k with
    | none => simp [hk]
    | some v =>
      rw [if_pos hk, if_pos]
      exact Fields.mem_names_of_mem (v := v) (List.mem_filterMap.mpr ⟨k, hk, by simp [hv]⟩)
  · rw [if_neg hk, if_neg, Fields.get?_nil]
    intro hmem
    obtain ⟨⟨l, v⟩, hpair, rfl⟩ := List.mem_map.mp hmem
    obtain ⟨l', hl', heq⟩ := List.mem_filterMap.mp hpair
    obtain ⟨w, -, hpair⟩ := Option.map_eq_some_iff.mp heq
    obtain ⟨rfl, -⟩ := Prod.mk.inj hpair
    exact hk hl'

theorem Table.ordered_keyOf (t : Table) (item : Item) : Fields.Ordered (t.keyOf item) :=
  Fields.ordered_ofList _

/-- The key of a row is its own key. -/
theorem Table.keyOf_keyOf (t : Table) (item : Item) : t.keyOf (t.keyOf item) = t.keyOf item :=
  (t.ordered_keyOf _).ext (t.ordered_keyOf item) fun k => by
    rw [get?_keyOf, get?_keyOf]
    split <;> simp_all

theorem Item.hasKey_iff (h : Fields.Ordered key) : item.hasKey key = true ↔
    ∀ k v, Fields.get? key k = some v → ∃ w, Fields.get? item k = some w ∧ w.agrees v = true := by
  simp only [hasKey, List.all_eq_true, Option.any_eq_true]
  constructor
  · intro hall k v hkv
    exact hall (k, v) (Fields.mem_of_get?_eq_some hkv)
  · rintro hall ⟨k, v⟩ hkv
    exact hall k v (h.get?_of_mem hkv)

/-- The row has a value for every key attribute. -/
def Table.Carries (t : Table) (item : Item) : Prop :=
  ∀ k ∈ t.keys.attributes, (Fields.get? item k).isSome

instance (t : Table) (item : Item) : Decidable (t.Carries item) :=
  inferInstanceAs (Decidable (∀ k ∈ t.keys.attributes, (Fields.get? item k).isSome))

/-- The first row has the key of the second. -/
def Table.sameKey (t : Table) (a b : Item) : Bool :=
  a.hasKey (t.keyOf b)

namespace Table

theorem sameKey_iff : t.sameKey a b = true ↔ ∀ k ∈ t.keys.attributes, ∀ v,
    Fields.get? b k = some v → ∃ w, Fields.get? a k = some w ∧ w.agrees v = true := by
  rw [sameKey, Item.hasKey_iff (t.ordered_keyOf b)]
  constructor
  · intro h k hk v hv
    exact h k v (by rw [get?_keyOf, if_pos hk, hv])
  · intro h k v hv
    rw [get?_keyOf] at hv
    split at hv
    · rename_i hk
      exact h k hk v hv
    · cases hv

theorem sameKey_refl (t : Table) (a : Item) : t.sameKey a a = true :=
  sameKey_iff.mpr fun _ _ v hv => ⟨v, hv, v.agrees_refl⟩

theorem sameKey_trans (hab : t.sameKey a b = true) (hbc : t.sameKey b c = true) :
    t.sameKey a c = true := by
  rw [sameKey_iff] at hab hbc ⊢
  intro k hk v hv
  obtain ⟨w, hw, hwv⟩ := hbc k hk v hv
  obtain ⟨u, hu, huw⟩ := hab k hk w hw
  exact ⟨u, hu, Value.agrees_trans huw hwv⟩

/-- Having the key of another row that carries all key attributes is mutual. -/
theorem sameKey_symm (hb : t.Carries b) (h : t.sameKey a b = true) : t.sameKey b a = true := by
  rw [sameKey_iff] at h ⊢
  intro k hk v hv
  obtain ⟨w, hw⟩ := Option.isSome_iff_exists.mp (hb k hk)
  obtain ⟨u, hu, huw⟩ := h k hk w hw
  obtain rfl : u = v := Option.some.inj (hu.symm.trans hv)
  exact ⟨w, hw, Value.agrees_symm huw⟩

theorem sameKey_of_sameFields
    (h : Value.sameFields (t.keyOf a) (t.keyOf b) = true) : t.sameKey a b = true := by
  have hfields : ∀ {fs gs : Fields Value}, Value.sameFields fs gs = true →
      ∀ k v, Fields.get? gs k = some v → ∃ w, Fields.get? fs k = some w ∧ w.same v = true := by
    intro fs
    induction fs with
    | nil =>
      intro gs h k v hv
      cases gs with
      | nil => cases hv
      | cons g gs => simp [Value.sameFields] at h
    | cons f fs ih =>
      obtain ⟨l, x⟩ := f
      intro gs h k v hv
      cases gs with
      | nil => simp [Value.sameFields] at h
      | cons g gs =>
        obtain ⟨l', y⟩ := g
        simp only [Value.sameFields, Bool.and_eq_true, decide_eq_true_eq] at h
        obtain ⟨rfl, hxy, hrest⟩ := h
        rw [Fields.get?_cons] at hv ⊢
        split
        · rename_i hl
          rw [if_pos hl, Option.some.injEq] at hv
          exact ⟨x, rfl, hv ▸ hxy⟩
        · rename_i hl
          rw [if_neg hl] at hv
          exact ih hrest k v hv
  rw [sameKey_iff]
  intro k hk v hv
  obtain ⟨w, hw, hwv⟩ := hfields h k v (by rw [get?_keyOf, if_pos hk, hv])
  rw [get?_keyOf, if_pos hk] at hw
  exact ⟨w, hw, Value.agrees_of_same hwv⟩

/-! ## Tables with different keys -/

/-- Every row carries all key attributes, and no two rows have one key. -/
structure WellKeyed (t : Table) : Prop where
  carries : ∀ item ∈ t.items, t.Carries item
  apart : t.items.Pairwise fun a b => t.sameKey a b = false

instance (t : Table) : Decidable t.WellKeyed :=
  decidable_of_iff ((∀ item ∈ t.items, t.Carries item) ∧
    t.items.Pairwise fun a b => t.sameKey a b = false)
    ⟨fun h => ⟨h.1, h.2⟩, fun h => ⟨h.1, h.2⟩⟩

/-- A row that consists of the key attributes. -/
structure IsKey (t : Table) (key : Item) : Prop where
  carries : t.Carries key
  keyOf_eq : t.keyOf key = key

theorem IsKey.hasKey (h : t.IsKey key) (item : Item) : item.hasKey key = t.sameKey item key := by
  rw [sameKey, h.keyOf_eq]

theorem isKey_keyOf (h : t.Carries item) : t.IsKey (t.keyOf item) where
  carries k hk := by
    rw [get?_keyOf, if_pos hk]
    exact h k hk
  keyOf_eq := t.keyOf_keyOf item

theorem WellKeyed.nodup (h : t.WellKeyed) : t.items.Nodup :=
  h.apart.imp fun {a b} hab heq => by
    rw [heq, t.sameKey_refl] at hab
    cases hab

theorem WellKeyed.apart_both (h : t.WellKeyed) :
    t.items.Pairwise fun a b => t.sameKey a b = false ∧ t.sameKey b a = false :=
  h.apart.imp_of_mem fun {a _} ha _ hab =>
    ⟨hab, Bool.eq_false_iff.mpr fun hba =>
      Bool.eq_false_iff.mp hab (sameKey_symm (h.carries a ha) hba)⟩

/-- Rows of one key are one row. -/
theorem WellKeyed.eq_of_sameKey (h : t.WellKeyed) (ha : a ∈ t.items) (hb : b ∈ t.items)
    (hab : t.sameKey a b = true) : a = b := by
  by_contra hne
  have hsymm : Std.Symm fun a b => t.sameKey a b = false ∧ t.sameKey b a = false :=
    ⟨fun _ _ h => h.symm⟩
  have hapart := h.apart_both.forall ha hb hne
  simp [hab] at hapart

/-- The row of a key is the one that has it. -/
theorem WellKeyed.find?_eq_some_iff (h : t.WellKeyed) (hkey : t.IsKey key) :
    t.find? key = some item ↔ item ∈ t.items ∧ item.hasKey key = true := by
  constructor
  · intro hfind
    have hhas := List.find?_some hfind
    exact ⟨List.mem_of_find?_eq_some hfind, hhas⟩
  · rintro ⟨hmem, hhas⟩
    cases hfind : t.find? key with
    | none => exact absurd hhas (by simpa using List.find?_eq_none.mp hfind item hmem)
    | some row =>
      have hrow := List.find?_some hfind
      rw [hkey.hasKey] at hhas hrow
      exact congrArg some (h.eq_of_sameKey (List.mem_of_find?_eq_some hfind) hmem
        (sameKey_trans hrow (sameKey_symm hkey.carries hhas)))

end Table

end KeyedQuery
