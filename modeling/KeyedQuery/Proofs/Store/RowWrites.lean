import KeyedQuery.Proofs.Store.Frame

/-!
# What writes make of one row

What a table holds under a key after a write depends on the row that it held there, and on the write if it is to
that row (`Table.WellKeyed.find?_applyWrite`). So what the writes of a transaction leave there is what those
of them make of the row that are to it, whatever the others are (`Memory.find?_foldlM_transactOne`).
-/

namespace KeyedQuery

/-- What the write makes of the row of its key. -/
def Write.leave (old : Option Item) : Write → Option Item
  | .put _ item => some item
  | .update _ key expression attributes =>
    (Item.update attributes expression (old.getD key)).toOption
  | .delete _ _ => none

namespace Table

variable {t t' : Table} {w : Write} {key other : Item}

theorem IsKey.hasKey_comm (hkey : t.IsKey key) (hother : t.IsKey other) :
    key.hasKey other = other.hasKey key := by
  rw [hkey.hasKey, hother.hasKey, Bool.eq_iff_iff]
  exact ⟨sameKey_symm hother.carries, sameKey_symm hkey.carries⟩

/-- Keys of one row find one row. -/
theorem WellKeyed.find?_congr (h : t.WellKeyed) (hkey : t.IsKey key) (hother : t.IsKey other)
    (hsame : key.hasKey other = true) : t.find? key = t.find? other := by
  refine Option.ext fun row => ?_
  rw [h.find?_eq_some_iff hkey, h.find?_eq_some_iff hother, hkey.hasKey, hother.hasKey]
  rw [hother.hasKey] at hsame
  refine and_congr_right fun _ => ⟨fun hrow => sameKey_trans hrow hsame, fun hrow => ?_⟩
  exact sameKey_trans hrow (sameKey_symm hother.carries hsame)

/-- After a write that keeps keys the table holds under its key what it makes of the row there, and under other
keys the rows that it held. -/
theorem WellKeyed.find?_applyWrite (h : t.WellKeyed) (hcarries : t.Carries w.row)
    (hkey : w.isPut = false → t.IsKey w.row) (hkeeps : w.KeepsKey t.keys)
    (happly : Memory.applyWrite t w = .ok t') :
    t'.WellKeyed ∧ ∀ key, t.IsKey key →
      t'.find? key = if w.targets key then w.leave (t.find? key) else t.find? key := by
  cases w with
  | put name item =>
    obtain rfl := Except.ok.inj happly
    exact ⟨h.upsert hcarries, fun key hkey => h.find?_upsert hcarries hkey⟩
  | delete name own =>
    obtain rfl := Except.ok.inj happly
    have hown : t.IsKey own := hkey rfl
    refine ⟨h.remove hown, fun key hkey => ?_⟩
    rw [h.find?_remove hown hkey, hkey.hasKey_comm hown]
    rfl
  | update name own expression attributes =>
    obtain ⟨next, hnext, rfl⟩ := exists_of_update happly
    have hown : t.IsKey own := hkey rfl
    have hkept := hkeeps _ next hnext
    have hsame := sameKey_of_sameOn hown hkept
    have hcarried : t.Carries next := by
      intro a ha
      rw [hkept a ha]
      cases hfind : t.find? own with
      | none => exact hown.carries a ha
      | some row => exact h.carries row (List.mem_of_find?_eq_some hfind) a ha
    refine ⟨h.upsert hcarried, fun key hkey => ?_⟩
    have htargets : next.hasKey key = own.hasKey key := by
      rw [hkey.hasKey, hkey.hasKey, Bool.eq_iff_iff]
      exact ⟨sameKey_trans (sameKey_symm hown.carries hsame), sameKey_trans hsame⟩
    rw [h.find?_upsert hcarried hkey, htargets]
    show (if own.hasKey key = true then _ else _) = if own.hasKey key = true then _ else _
    split
    · rename_i hhas
      rw [Write.leave, ← h.find?_congr hown hkey hhas, hnext]
      rfl
    · rfl

end Table

namespace Memory

variable {t : Table} {name : String} {key : Item}

/-- What is left of the row of a key is what the writes to it make of it, one after another. -/
theorem find?_foldlM_transactOne (hkey : t.IsKey key) : ∀ {writes : List Write}
    {current : Fields Table} {touched : List RowIdentity} {state : Fields Table × List RowIdentity}
    {u : Table}, Fields.get? current name = some u → u.keys = t.keys → u.WellKeyed →
    (∀ w ∈ writes, w.table = name → t.Carries w.row ∧ (w.isPut = false → t.IsKey w.row) ∧
      w.KeepsKey t.keys) →
    writes.foldlM transactOne (current, touched) = .ok state →
    ∃ u', Fields.get? state.1 name = some u' ∧ u'.find? key =
      (writes.filter fun w => w.table = name ∧ w.targets key).foldl Write.leave (u.find? key)
  | [], current, touched, state, u, hu, _, _, _, hfold => by
    obtain rfl := Except.ok.inj hfold
    exact ⟨u, hu, rfl⟩
  | w :: writes, current, touched, state, u, hu, hkeys, hwell, hwrites, hfold => by
    rw [List.foldlM_cons] at hfold
    obtain ⟨first, hone, hrest⟩ := exists_of_bind_eq_ok hfold
    obtain ⟨old, old', hold, -, happly, rfl⟩ := transactOne_eq_ok_iff.mp hone
    obtain ⟨hw, hothers⟩ := List.forall_mem_cons.mp hwrites
    by_cases hname : w.table = name
    · obtain rfl := Option.some.inj (hu.symm.trans (hname ▸ hold))
      obtain ⟨hcarries, hisKey, hkeeps⟩ := hw hname
      obtain ⟨hwell', hfind⟩ := hwell.find?_applyWrite ((Table.carries_congr hkeys).mpr hcarries)
        (fun hput => (hisKey hput).congr hkeys.symm) (hkeys ▸ hkeeps) happly
      obtain ⟨u', hu', hafter⟩ := find?_foldlM_transactOne hkey (hname ▸ Fields.get?_insert_self _ _ _)
        ((keys_of_applyWrite happly).trans hkeys) hwell' hothers hrest
      refine ⟨u', hu', hafter.trans ?_⟩
      rw [hfind key (hkey.congr hkeys.symm), List.filter_cons]
      split
      · rename_i htargets
        rw [if_pos (by simpa [hname] using htargets)]
        rfl
      · rename_i htargets
        rw [if_neg (by simpa [hname] using htargets)]
    · obtain ⟨u', hu', hafter⟩ := find?_foldlM_transactOne hkey
        ((Fields.get?_insert_of_ne _ _ hname).trans hu) hkeys hwell hothers hrest
      refine ⟨u', hu', hafter.trans ?_⟩
      rw [List.filter_cons_of_neg (by simp [hname])]

/-- A transaction that succeeds has carried its writes out one after another. -/
theorem exists_fold_of_transact {m next : Memory} {writes : List Write} {token : String} {answer : Unit}
    (h : m.perform (.transact writes token) = (.ok answer, next)) :
    ∃ state, writes.foldlM transactOne (m.tables, []) = .ok state ∧ next.tables = state.1 := by
  change m.commit ((m.transact writes).map fun changed => ((), changed)) = _ at h
  cases htransact : m.transact writes with
  | error fault =>
    rw [htransact] at h
    cases h
  | ok changed =>
    rw [htransact] at h
    obtain rfl : changed = next := congrArg Prod.snd h
    unfold transact at htransact
    split at htransact
    · cases htransact
    · obtain ⟨state, hfold, rfl⟩ := exists_of_map_eq_ok htransact
      exact ⟨state, hfold, rfl⟩

end Memory

end KeyedQuery
