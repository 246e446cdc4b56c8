import KeyedQuery.Proofs.Store.Layout

/-!
# Writing to tables

Storing a row leaves it in place of the one with its key, and dropping a key leaves the rows without
it (`Table.WellKeyed.mem_upsert`, `Table.WellKeyed.mem_remove`). Both keep the keys of a table's rows
different, so a table is known by the row of each key (`Table.WellKeyed.find?_upsert`,
`Table.WellKeyed.find?_remove`).
-/

namespace KeyedQuery

namespace Table

variable {t : Table} {item row key key' : Item}

/-! ## Layout -/

@[simp]
theorem upsert_keys (t : Table) (item : Item) : (t.upsert item).keys = t.keys := by
  unfold upsert
  split <;> rfl

@[simp]
theorem upsert_indexes (t : Table) (item : Item) : (t.upsert item).indexes = t.indexes := by
  unfold upsert
  split <;> rfl

@[simp]
theorem remove_keys (t : Table) (key : Item) : (t.remove key).keys = t.keys := by
  unfold remove
  split <;> rfl

@[simp]
theorem remove_indexes (t : Table) (key : Item) : (t.remove key).indexes = t.indexes := by
  unfold remove
  split <;> rfl

theorem keyOf_congr {t t' : Table} (h : t.keys = t'.keys) (item : Item) :
    t.keyOf item = t'.keyOf item := by
  unfold keyOf
  rw [h]

theorem keyOf_eq_of_get?_eq {a b : Item}
    (h : ∀ k ∈ t.keys.attributes, Fields.get? a k = Fields.get? b k) : t.keyOf a = t.keyOf b :=
  (t.ordered_keyOf a).ext (t.ordered_keyOf b) fun k => by
    rw [get?_keyOf, get?_keyOf]
    split
    · rename_i hk
      exact h k hk
    · rfl

theorem sameKey_congr {t t' : Table} (h : t.keys = t'.keys) (a b : Item) :
    t.sameKey a b = t'.sameKey a b := by
  rw [sameKey, sameKey, keyOf_congr h]

theorem carries_congr {t t' : Table} (h : t.keys = t'.keys) : t.Carries item ↔ t'.Carries item := by
  rw [Carries, Carries, h]

theorem IsKey.congr {t t' : Table} (hkey : t.IsKey key) (h : t.keys = t'.keys) : t'.IsKey key where
  carries := (carries_congr h).mp hkey.carries
  keyOf_eq := keyOf_congr h key ▸ hkey.keyOf_eq

/-! ## Positions -/

theorem exists_of_position {i : Nat} (h : t.position key = some i) :
    ∃ before old after, t.items = before ++ old :: after ∧ before.length = i ∧
      old.hasKey key = true := by
  obtain ⟨hlt, hold, -⟩ := List.findIdx?_eq_some_iff_getElem.mp h
  refine ⟨t.items.take i, t.items[i], t.items.drop (i + 1), ?_, ?_, hold⟩
  · rw [List.getElem_cons_drop, List.take_append_drop]
  · rw [List.length_take]
    omega

theorem upsert_cases (t : Table) (item : Item) :
    (∃ before old after, t.items = before ++ old :: after ∧ t.sameKey old item = true ∧
      (t.upsert item).items = before ++ item :: after) ∨
    (∀ row ∈ t.items, t.sameKey row item = false) ∧ (t.upsert item).items = t.items ++ [item] := by
  unfold upsert
  cases hposition : t.position (t.keyOf item) with
  | some i =>
    obtain ⟨before, old, after, hitems, rfl, hold⟩ := exists_of_position hposition
    refine .inl ⟨before, old, after, hitems, hold, ?_⟩
    show t.items.set before.length item = _
    rw [hitems, List.set_append_right _ _ (Nat.le_refl _), Nat.sub_self]
    rfl
  | none => exact .inr ⟨List.findIdx?_eq_none_iff.mp hposition, rfl⟩

/-- A row goes where the first row with its key is. -/
theorem upsert_eq_of_items {before after : List Item} {old : Item}
    (hitems : t.items = before ++ old :: after) (hold : t.sameKey old item = true)
    (hbefore : ∀ row ∈ before, t.sameKey row item = false) :
    t.upsert item = { t with items := before ++ item :: after } := by
  have hposition : t.position (t.keyOf item) = some before.length := by
    refine List.findIdx?_eq_some_iff_getElem.mpr ⟨by simp [hitems], ?_, fun i hi => ?_⟩
    · simp only [hitems, List.getElem_append_right (Nat.le_refl _), Nat.sub_self,
        List.getElem_cons_zero]
      exact hold
    · simp only [hitems, List.getElem_append_left hi, Bool.not_eq_true]
      exact hbefore _ (List.getElem_mem hi)
  rw [upsert, hposition]
  dsimp only
  rw [hitems, List.set_append_right _ _ (Nat.le_refl _), Nat.sub_self, List.set_cons_zero]

theorem remove_cases (t : Table) (key : Item) :
    (∃ before old after, t.items = before ++ old :: after ∧ old.hasKey key = true ∧
      (t.remove key).items = before ++ after) ∨
    (∀ row ∈ t.items, row.hasKey key = false) ∧ (t.remove key).items = t.items := by
  unfold remove
  cases hposition : t.position key with
  | some i =>
    obtain ⟨before, old, after, hitems, rfl, hold⟩ := exists_of_position hposition
    refine .inl ⟨before, old, after, hitems, hold, ?_⟩
    show t.items.eraseIdx before.length = _
    rw [hitems, List.eraseIdx_append_of_length_le (Nat.le_refl _), Nat.sub_self]
    rfl
  | none => exact .inr ⟨List.findIdx?_eq_none_iff.mp hposition, rfl⟩

/-- Dropping a key that no row has changes nothing. -/
theorem remove_of_find?_eq_none (h : t.find? key = none) : t.remove key = t := by
  have hposition : t.position key = none :=
    List.findIdx?_eq_none_iff.mpr fun row hrow => by simpa using List.find?_eq_none.mp h row hrow
  rw [remove, hposition]

/-! ## Tables with different keys -/

/-- A row of the key of one row of a table has the key of no other one. -/
theorem WellKeyed.others_apart (h : t.WellKeyed) {before after : List Item} {old : Item}
    (hitems : t.items = before ++ old :: after) (hold : t.sameKey old item = true)
    (hcarries : t.Carries item) :
    (∀ row ∈ before, t.sameKey row item = false) ∧ ∀ row ∈ after, t.sameKey row item = false := by
  have hsymm := sameKey_symm hcarries hold
  have hapart := h.apart_both
  rw [hitems, List.pairwise_append] at hapart
  obtain ⟨-, hafter, hbefore⟩ := hapart
  refine ⟨fun row hrow => ?_, fun row hrow => ?_⟩
  · rw [Bool.eq_false_iff]
    intro hsame
    have hfalse := (hbefore row hrow old List.mem_cons_self).1
    rw [sameKey_trans hsame hsymm] at hfalse
    cases hfalse
  · rw [Bool.eq_false_iff]
    intro hsame
    have hfalse := ((List.pairwise_cons.mp hafter).1 row hrow).2
    rw [sameKey_trans hsame hsymm] at hfalse
    cases hfalse

/-- Storing a row replaces the one with its key and keeps all others. -/
theorem WellKeyed.mem_upsert (h : t.WellKeyed) (hcarries : t.Carries item) :
    row ∈ (t.upsert item).items ↔ row = item ∨ row ∈ t.items ∧ t.sameKey row item = false := by
  rcases t.upsert_cases item with ⟨before, old, after, hitems, hold, hupsert⟩ | ⟨hnone, hupsert⟩
  · obtain ⟨hbefore, hafter⟩ := h.others_apart hitems hold hcarries
    rw [hupsert, hitems]
    simp only [List.mem_append, List.mem_cons]
    constructor
    · rintro (hrow | rfl | hrow)
      · exact .inr ⟨.inl hrow, hbefore row hrow⟩
      · exact .inl rfl
      · exact .inr ⟨.inr (.inr hrow), hafter row hrow⟩
    · rintro (rfl | ⟨hrow | rfl | hrow, hne⟩)
      · exact .inr (.inl rfl)
      · exact .inl hrow
      · rw [hold] at hne
        cases hne
      · exact .inr (.inr hrow)
  · rw [hupsert, List.mem_append, List.mem_singleton]
    constructor
    · rintro (hrow | rfl)
      · exact .inr ⟨hrow, hnone row hrow⟩
      · exact .inl rfl
    · rintro (rfl | ⟨hrow, -⟩)
      · exact .inr rfl
      · exact .inl hrow

theorem WellKeyed.upsert (h : t.WellKeyed) (hcarries : t.Carries item) :
    (t.upsert item).WellKeyed where
  carries row hrow := by
    rw [carries_congr (t.upsert_keys item)]
    rcases (h.mem_upsert hcarries).mp hrow with rfl | ⟨hrow, -⟩
    · exact hcarries
    · exact h.carries row hrow
  apart := by
    have hitem : ∀ row ∈ t.items, t.sameKey row item = false → t.sameKey item row = false :=
      fun row hrow hne => Bool.eq_false_iff.mpr fun hsame => by
        rw [sameKey_symm (h.carries row hrow) hsame] at hne
        cases hne
    have hapart := h.apart
    suffices (t.upsert item).items.Pairwise fun a b => t.sameKey a b = false from
      this.imp fun {a b} hab => (sameKey_congr (t.upsert_keys item) a b).trans hab
    rcases t.upsert_cases item with ⟨before, old, after, hitems, hold, hupsert⟩ | ⟨hnone, hupsert⟩
    · obtain ⟨hbefore, hafter⟩ := h.others_apart hitems hold hcarries
      rw [hitems, List.pairwise_append, List.pairwise_cons] at hapart
      obtain ⟨hfirst, ⟨-, hrest⟩, hboth⟩ := hapart
      rw [hupsert, List.pairwise_append, List.pairwise_cons]
      refine ⟨hfirst, ⟨fun row hrow => hitem row ?_ (hafter row hrow), hrest⟩, fun a ha b hb => ?_⟩
      · rw [hitems]
        exact List.mem_append_right _ (List.mem_cons_of_mem _ hrow)
      · rcases List.mem_cons.mp hb with rfl | hb
        · exact hbefore a ha
        · exact hboth a ha b (List.mem_cons_of_mem _ hb)
    · rw [hupsert, List.pairwise_append]
      refine ⟨hapart, List.pairwise_singleton _ _, fun a ha b hb => ?_⟩
      rw [List.mem_singleton.mp hb]
      exact hnone a ha

/-- After a row has been stored, it is the row of its key, and the other keys have the rows that they
had. -/
theorem WellKeyed.find?_upsert (h : t.WellKeyed) (hcarries : t.Carries item) (hkey : t.IsKey key) :
    (t.upsert item).find? key = if item.hasKey key then some item else t.find? key := by
  have hwell := h.upsert hcarries
  have hkey' := hkey.congr (t.upsert_keys item).symm
  split
  · rename_i hhas
    exact (hwell.find?_eq_some_iff hkey').mpr ⟨(h.mem_upsert hcarries).mpr (.inl rfl), hhas⟩
  · rename_i hnot
    refine Option.ext fun row => ?_
    rw [hwell.find?_eq_some_iff hkey', h.find?_eq_some_iff hkey, h.mem_upsert hcarries]
    constructor
    · rintro ⟨rfl | ⟨hrow, -⟩, hhas⟩
      · exact absurd hhas hnot
      · exact ⟨hrow, hhas⟩
    · rintro ⟨hrow, hhas⟩
      refine ⟨.inr ⟨hrow, Bool.eq_false_iff.mpr fun hsame => hnot ?_⟩, hhas⟩
      rw [hkey.hasKey] at hhas ⊢
      exact sameKey_trans (sameKey_symm hcarries hsame) hhas

/-- Dropping a key keeps the rows without it. -/
theorem WellKeyed.mem_remove (h : t.WellKeyed) (hkey : t.IsKey key) :
    row ∈ (t.remove key).items ↔ row ∈ t.items ∧ row.hasKey key = false := by
  rcases t.remove_cases key with ⟨before, old, after, hitems, hold, hremove⟩ | ⟨hnone, hremove⟩
  · obtain ⟨hbefore, hafter⟩ := h.others_apart hitems (hkey.hasKey old ▸ hold) hkey.carries
    rw [hremove, hitems]
    simp only [List.mem_append, List.mem_cons, hkey.hasKey]
    constructor
    · rintro (hrow | hrow)
      · exact ⟨.inl hrow, hbefore row hrow⟩
      · exact ⟨.inr (.inr hrow), hafter row hrow⟩
    · rintro ⟨hrow | rfl | hrow, hne⟩
      · exact .inl hrow
      · rw [← hkey.hasKey, hold] at hne
        cases hne
      · exact .inr hrow
  · rw [hremove]
    exact ⟨fun hrow => ⟨hrow, hnone row hrow⟩, And.left⟩

theorem WellKeyed.remove (h : t.WellKeyed) (hkey : t.IsKey key) : (t.remove key).WellKeyed where
  carries row hrow := by
    rw [carries_congr (t.remove_keys key)]
    exact h.carries row ((h.mem_remove hkey).mp hrow).1
  apart := by
    suffices (t.remove key).items.Pairwise fun a b => t.sameKey a b = false from
      this.imp fun {a b} hab => (sameKey_congr (t.remove_keys key) a b).trans hab
    refine h.apart.sublist ?_
    rcases t.remove_cases key with ⟨before, old, after, hitems, -, hremove⟩ | ⟨-, hremove⟩
    · rw [hremove, hitems]
      exact (List.sublist_cons_self old after).append_left before
    · rw [hremove]

/-- After a key has been dropped it has no row, and the other keys have the rows that they had. -/
theorem WellKeyed.find?_remove (h : t.WellKeyed) (hkey : t.IsKey key) (hkey' : t.IsKey key') :
    (t.remove key).find? key' = if key'.hasKey key then none else t.find? key' := by
  have hwell := h.remove hkey
  have hkey'' := hkey'.congr (t.remove_keys key).symm
  refine Option.ext fun row => ?_
  rw [hwell.find?_eq_some_iff hkey'', h.mem_remove hkey]
  split
  · rename_i hsame
    simp only [reduceCtorEq, iff_false, not_and]
    rintro ⟨-, hnot⟩ hhas
    rw [hkey.hasKey] at hnot hsame
    rw [hkey'.hasKey] at hhas
    rw [sameKey_trans hhas hsame] at hnot
    cases hnot
  · rename_i hne
    rw [h.find?_eq_some_iff hkey']
    constructor
    · rintro ⟨⟨hrow, -⟩, hhas⟩
      exact ⟨hrow, hhas⟩
    · rintro ⟨hrow, hhas⟩
      refine ⟨⟨hrow, Bool.eq_false_iff.mpr fun hsame => hne ?_⟩, hhas⟩
      rw [hkey.hasKey] at hsame ⊢
      rw [hkey'.hasKey] at hhas
      exact sameKey_trans (sameKey_symm hkey'.carries hhas) hsame

end Table

/-! ## Seeding -/

/-- Rows of a table that are no rows are skipped, the others are stored. -/
theorem Memory.IsOf.seed {s : Schema} {m : Memory} (h : m.IsOf s) (table : String)
    (values : List Value) : (m.seed table values).IsOf s := by
  unfold Memory.seed
  split
  · rename_i t ht
    refine ⟨fun name => ?_, h.pageSize_ne⟩
    rw [← h.layout name]
    show (Fields.get? (Fields.insert m.tables table _) name).map _ = _
    rw [Fields.get?_insert]
    split
    · rename_i hname
      subst hname
      rw [ht]
      refine congrArg some ?_
      refine List.foldlRecOn (motive := fun filled : Table =>
        (filled.keys, filled.indexes) = (t.keys, t.indexes)) values _ rfl fun filled hfilled v _ => ?_
      split <;> simpa using hfilled
    · rfl
  · exact h

end KeyedQuery
