import KeyedQuery.Proofs.Store.Pages
import KeyedQuery.Proofs.Store.Unique

/-!
# Rows with keys apart

Pages go on behind the key of a row, so they rely on no other row having the same key attributes with the
same values (`Table.KeysApart`). This is true of every store that can be reached, also if rows lack key
attributes: no row of a table has the key of one that is stored behind it (`Table.Separate`). A fresh store
is so, and whatever requests it gets it stays so (`Memory.separate_ofSchema`, `Memory.Separate.receive`).
-/

namespace KeyedQuery

namespace Table

variable {t : Table} {item : Item}

/-- No row has the key of one that is stored behind it. -/
def Separate (t : Table) : Prop :=
  t.items.Pairwise fun a b => t.sameKey a b = false

theorem Separate.keysApart (h : t.Separate) : t.KeysApart t.items :=
  h.imp fun hab => Bool.eq_false_iff.mpr fun hsame =>
    Bool.eq_false_iff.mp hab (sameKey_of_sameFields hsame)

/-- A row is stored in place of the first one with its key. -/
theorem Separate.upsert (h : t.Separate) (item : Item) : (t.upsert item).Separate := by
  suffices hitems : (t.upsert item).items.Pairwise fun a b => t.sameKey a b = false from
    hitems.imp fun {a b} hab => (sameKey_congr (t.upsert_keys item) a b).trans hab
  cases hfind : t.items.find? fun row => t.sameKey row item with
  | none =>
    have hnone : ∀ row ∈ t.items, t.sameKey row item = false := by
      simpa using List.find?_eq_none.mp hfind
    rcases t.upsert_cases item with ⟨before, old, after, hitems, hold, -⟩ | ⟨-, hupsert⟩
    · rw [hnone old (by simp [hitems])] at hold
      cases hold
    · rw [hupsert]
      refine List.pairwise_append.mpr ⟨h, List.pairwise_singleton _ _, fun row hrow other hother => ?_⟩
      rw [List.mem_singleton.mp hother]
      exact hnone row hrow
  | some old =>
    obtain ⟨hold, before, after, hitems, hbefore⟩ := List.find?_eq_some_iff_append.mp hfind
    have hbefore : ∀ row ∈ before, t.sameKey row item = false := by simpa using hbefore
    rw [upsert_eq_of_items hitems hold hbefore]
    rw [Separate, hitems] at h
    obtain ⟨hfirst, hrest, hcross⟩ := List.pairwise_append.mp h
    obtain ⟨hafter, hlast⟩ := List.pairwise_cons.mp hrest
    refine List.pairwise_append.mpr ⟨hfirst, List.pairwise_cons.mpr ⟨fun row hrow => ?_, hlast⟩, ?_⟩
    · -- A key that the new row has is one that the old row had.
      exact Bool.eq_false_iff.mpr fun hsame =>
        Bool.eq_false_iff.mp (hafter row hrow) (sameKey_trans hold hsame)
    · intro row hrow other hother
      rcases List.mem_cons.mp hother with rfl | hother
      · exact hbefore row hrow
      · exact hcross row hrow other (List.mem_cons_of_mem old hother)

theorem Separate.remove (h : t.Separate) (key : Item) : (t.remove key).Separate :=
  (h.sublist (t.items_remove_sublist key)).imp fun {a b} hab =>
    (sameKey_congr (t.remove_keys key) a b).trans hab

theorem isKept_separate : IsKept Separate :=
  ⟨Separate.upsert, Separate.remove⟩

end Table

namespace Memory

variable {m : Memory}

/-- No row of a table has the key of one that is stored behind it. -/
def Separate (m : Memory) : Prop :=
  m.Every Table.Separate

theorem Separate.keysApart (h : m.Separate) : m.Every fun t => t.KeysApart t.items :=
  fun name t ht => (h name t ht).keysApart

theorem separate_ofSchema (s : Schema) (pageSize : Option Nat) : (ofSchema s pageSize).Separate :=
  fun _ _ ht => by rw [Table.Separate, items_ofSchema ht]; exact .nil

theorem Separate.seed (h : m.Separate) (table : String) (values : List Value) :
    (m.seed table values).Separate :=
  Every.seed Table.isKept_separate h table values

/-- Whatever a store is asked, no row gets the key of one that is stored behind it. -/
theorem Separate.receive (h : m.Separate) (r : Request) : (receive r m).2.Separate :=
  Every.receive Table.isKept_separate h r

end Memory

end KeyedQuery
