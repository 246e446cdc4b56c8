import KeyedQuery.Proofs.Store.Failures
import KeyedQuery.Proofs.Store.Transactions

/-!
# Rows of a full key

Rows may lack key attributes, and then one row can have the key of several others. But no two rows of a
table have one full key (`Table.Unique`): storing a row puts it in the place of the one that has its key.
So dropping a key drops every row that has it (`Table.Unique.items_remove`). A fresh store is so, and
whatever requests it gets it stays so (`Memory.unique_ofSchema`, `Memory.Unique.receive`), as is true of all
that storing and dropping rows keeps (`Memory.Every.receive`).
-/

namespace KeyedQuery

/-! ## Tables -/

namespace Table

variable {t t' : Table} {item key row : Item}

/-- At most one row has a full key. -/
def Unique (t : Table) : Prop :=
  ∀ key, t.IsKey key → t.items.countP (fun row => row.hasKey key) ≤ 1

theorem unique_of_items_eq_nil (h : t.items = []) : t.Unique := by
  intro key _
  rw [h]
  exact Nat.zero_le 1

theorem WellKeyed.unique (h : t.WellKeyed) : t.Unique := by
  intro key hkey
  rw [List.countP_eq_length_filter]
  have hnodup := h.nodup.filter fun row => row.hasKey key
  have hone : ∀ a ∈ t.items.filter fun row => row.hasKey key,
      ∀ b ∈ t.items.filter fun row => row.hasKey key, a = b := by
    intro a ha b hb
    rw [List.mem_filter, hkey.hasKey] at ha hb
    exact h.eq_of_sameKey ha.1 hb.1 (sameKey_trans ha.2 (sameKey_symm hkey.carries hb.2))
  generalize t.items.filter (fun row => row.hasKey key) = rows at hnodup hone
  match rows with
  | [] => exact Nat.zero_le 1
  | [_] => exact Nat.le_refl 1
  | a :: b :: rest =>
    have heq : a = b := hone a List.mem_cons_self b (List.mem_cons_of_mem a List.mem_cons_self)
    exact absurd (heq ▸ List.mem_cons_self) (List.nodup_cons.mp hnodup).1

/-- A row has a full key only if the row in whose place it is stored has it. -/
theorem IsKey.hasKey_of_sameKey (hkey : t.IsKey key) (hold : t.sameKey row item = true)
    (hitem : item.hasKey key = true) : row.hasKey key = true := by
  rw [hkey.hasKey] at hitem ⊢
  exact sameKey_trans hold hitem

theorem Unique.upsert (h : t.Unique) (item : Item) : (t.upsert item).Unique := by
  intro key hkey
  have hkey := hkey.congr (t.upsert_keys item)
  have hone := h key hkey
  rcases t.upsert_cases item with ⟨before, old, after, hitems, hold, hupsert⟩ | ⟨hnone, hupsert⟩
  · rw [hitems] at hone
    have hplace := hkey.hasKey_of_sameKey hold
    rw [hupsert]
    simp only [List.countP_append, List.countP_cons] at hone ⊢
    split
    · rename_i hitem
      rwa [if_pos (hplace hitem)] at hone
    · omega
  · rw [hupsert, List.countP_append, List.countP_singleton]
    split
    · rename_i hitem
      have hothers : t.items.countP (fun row => row.hasKey key) = 0 := by
        refine List.countP_eq_zero.mpr fun row hrow hhas => ?_
        rw [hkey.hasKey] at hitem hhas
        have hsame := sameKey_trans hhas (sameKey_symm hkey.carries hitem)
        rw [hnone row hrow] at hsame
        cases hsame
      omega
    · exact hone

theorem items_remove_sublist (t : Table) (key : Item) : (t.remove key).items.Sublist t.items := by
  rcases t.remove_cases key with ⟨before, old, after, hitems, -, hremove⟩ | ⟨-, hremove⟩
  · rw [hremove, hitems]
    exact (List.sublist_cons_self old after).append_left before
  · rw [hremove]

theorem Unique.remove (h : t.Unique) (key : Item) : (t.remove key).Unique := fun key' hkey =>
  Nat.le_trans (t.items_remove_sublist key).countP_le (h key' (hkey.congr (t.remove_keys key)))

/-- Dropping a full key leaves the rows that do not have it. -/
theorem Unique.items_remove (h : t.Unique) (hkey : t.IsKey key) :
    (t.remove key).items = t.items.filter fun row => !row.hasKey key := by
  rcases t.remove_cases key with ⟨before, old, after, hitems, hold, hremove⟩ | ⟨hnone, hremove⟩
  · have hone := h key hkey
    rw [hitems, List.countP_append, List.countP_cons, if_pos hold] at hone
    have hothers : ∀ rows : List Item, rows.countP (fun row => row.hasKey key) = 0 →
        rows.filter (fun row => !row.hasKey key) = rows := fun rows hrows =>
      List.filter_eq_self.mpr fun row hrow => by simpa using List.countP_eq_zero.mp hrows row hrow
    rw [hremove, hitems, List.filter_append, List.filter_cons_of_neg (by simp [hold]),
      hothers before (by omega), hothers after (by omega)]
  · rw [hremove, List.filter_eq_self.mpr fun row hrow => by simp [hnone row hrow]]

/-- A full key has one row or none. -/
theorem Unique.toList_find? (h : t.Unique) (hkey : t.IsKey key) :
    (t.find? key).toList = t.items.filter fun row => row.hasKey key := by
  have hone := h key hkey
  rw [List.countP_eq_length_filter] at hone
  rw [find?, ← List.head?_filter]
  generalize t.items.filter (fun row => row.hasKey key) = rows at hone
  match rows with
  | [] => rfl
  | [_] => rfl
  | _ :: _ :: _ => simp at hone

theorem Unique.find?_eq_some (h : t.Unique) (hkey : t.IsKey key) (hmem : row ∈ t.items)
    (hhas : row.hasKey key = true) : t.find? key = some row :=
  Option.mem_toList.mp (h.toList_find? hkey ▸ List.mem_filter.mpr ⟨hmem, hhas⟩)

/-- Storing or dropping a row keeps the property. -/
structure IsKept (P : Table → Prop) : Prop where
  upsert : ∀ {t}, P t → ∀ item, P (t.upsert item)
  remove : ∀ {t}, P t → ∀ key, P (t.remove key)

theorem isKept_unique : IsKept Unique :=
  ⟨Unique.upsert, Unique.remove⟩

theorem IsKept.applyWrite {P : Table → Prop} (hkept : IsKept P) {w : Write} (h : P t)
    (hwrite : Memory.applyWrite t w = .ok t') : P t' := by
  rcases Memory.applyWrite_cases hwrite with ⟨item, rfl⟩ | ⟨key, rfl⟩
  · exact hkept.upsert h item
  · exact hkept.remove h key

end Table

/-! ## Stores -/

namespace Memory

variable {m next : Memory} {name : String} {t : Table} {P : Table → Prop}

/-- All tables have a property. -/
def Every (P : Table → Prop) (m : Memory) : Prop :=
  ∀ name t, Fields.get? m.tables name = some t → P t

theorem Every.withTable (h : m.Every P) (ht : P t) : (m.withTable name t).Every P := by
  intro other u hu
  rw [show (m.withTable name t).tables = Fields.insert m.tables name t from rfl,
    Fields.get?_insert] at hu
  split at hu
  · obtain rfl := Option.some.inj hu
    exact ht
  · exact h other u hu

theorem items_ofSchema {s : Schema} {pageSize : Option Nat}
    (ht : Fields.get? (ofSchema s pageSize).tables name = some t) : t.items = [] := by
  have hfresh : ∀ (ds : List ModelDef) (m : Memory),
      (∀ name t, Fields.get? m.tables name = some t → t.items = []) →
      ∀ name t, Fields.get? (ds.foldl addModel m).tables name = some t → t.items = [] := by
    intro ds
    induction ds with
    | nil => exact fun _ h => h
    | cons d ds ih =>
      refine fun m h => ih _ fun name t ht => ?_
      rw [addModel, createTable, Fields.get?_insert] at ht
      split at ht
      · obtain rfl := Option.some.inj ht
        cases hold : Fields.get? m.tables d.table with
        | none => rfl
        | some u => exact h d.table u hold
      · exact h name t ht
  exact hfresh s.definitions _ (by simp) name t ht

section

variable (hkept : Table.IsKept P)
include hkept

theorem Every.seed (h : m.Every P) (table : String) (values : List Value) :
    (m.seed table values).Every P := by
  unfold Memory.seed
  split
  · rename_i t ht
    refine h.withTable ?_
    refine List.foldlRecOn (motive := P) values _ (h table t ht) fun filled hfilled v _ => ?_
    split
    · exact hkept.upsert hfilled _
    · exact hfilled
  · exact h

theorem Every.foldlM_transactOne : ∀ {writes : List Write} {m : Memory}
    {touched : List RowIdentity} {state : Fields Table × List RowIdentity}, m.Every P →
    writes.foldlM transactOne (m.tables, touched) = .ok state →
    Every P { m with tables := state.1 }
  | [], m, touched, state, h, hfold => by
    obtain rfl := Except.ok.inj hfold
    exact h
  | w :: writes, m, touched, state, h, hfold => by
    rw [List.foldlM_cons] at hfold
    obtain ⟨first, hone, hrest⟩ := exists_of_bind_eq_ok hfold
    obtain ⟨t, t', ht, -, happly, rfl⟩ := transactOne_eq_ok_iff.mp hone
    exact Every.foldlM_transactOne (m := m.withTable w.table t')
      (h.withTable (hkept.applyWrite (h w.table t ht) happly)) hrest

theorem Every.perform (h : m.Every P) (r : Request) : (m.perform r).2.Every P := by
  rcases m.tables_perform r with hsame | ⟨state, hfold, htables⟩
  · exact fun name t ht => h name t (hsame ▸ ht)
  · exact fun name t ht => Every.foldlM_transactOne hkept h hfold name t (htables ▸ ht)

/-- Whatever a store is asked, its tables keep what storing and dropping rows keeps. -/
theorem Every.receive (h : m.Every P) (r : Request) : (receive r m).2.Every P := by
  rcases m.receive_cases r with ⟨-, hreceive⟩ | ⟨before, fault, after, -, hreceive⟩
  · rw [hreceive]
    exact h.perform hkept r
  · rw [hreceive]
    exact h

end

/-- At most one row of a table has a full key. -/
def Unique (m : Memory) : Prop :=
  ∀ name t, Fields.get? m.tables name = some t → t.Unique

theorem WellKeyed.unique (h : m.WellKeyed) : m.Unique :=
  fun name t ht => (h name t ht).unique

theorem unique_ofSchema (s : Schema) (pageSize : Option Nat) : (ofSchema s pageSize).Unique :=
  fun _ _ ht => Table.unique_of_items_eq_nil (items_ofSchema ht)

theorem Unique.seed (h : m.Unique) (table : String) (values : List Value) :
    (m.seed table values).Unique :=
  Every.seed Table.isKept_unique h table values

theorem Unique.foldlM_transactOne {writes : List Write} {touched : List RowIdentity}
    {state : Fields Table × List RowIdentity} (h : m.Unique)
    (hfold : writes.foldlM transactOne (m.tables, touched) = .ok state) :
    Unique { m with tables := state.1 } :=
  Every.foldlM_transactOne Table.isKept_unique h hfold

/-- Whatever a store is asked, it keeps at most one row of a full key. -/
theorem Unique.receive (h : m.Unique) (r : Request) : (receive r m).2.Unique :=
  Every.receive Table.isKept_unique h r

end Memory

end KeyedQuery
