import KeyedQuery.Proofs.Database.RowKeys
import KeyedQuery.Proofs.Patch.Locality
import KeyedQuery.Proofs.Store.Unique
import KeyedQuery.Proofs.Transaction.Rows

/-!
# What writes leave alone

The rows of a table have full keys if every row has a value for each key attribute, and no two rows have
one key (`Table.FullyKeyed`). A write is fit for that if what it puts has a full key, and what it changes
is left one (`Write.Fit`). If an update does not change the key of a row (`Write.KeepsKey`), rows of other
keys than the one that it names are not touched: they are the same rows as before, in the same order
(`Table.filter_applyWrite`).

`Fields.Evolves` says both of the tables that a series of writes leaves, and every request whose writes
are proper preserves it, whether it succeeds or not (`Fields.Evolves.receive`). That keys are kept is
asked for writes to some tables only: those whose names do not continue each other.
-/

namespace KeyedQuery

/-! ## Keys -/

/-- Both rows have values for all key attributes, and the values agree. -/
def KeySchema.agree (keys : KeySchema) (a b : Item) : Bool :=
  keys.attributes.all fun k =>
    (Fields.get? a k).any fun v => (Fields.get? b k).any fun w => v.agrees w

theorem Value.isMissing_eq_false_iff {v : Option Value} :
    isMissing v = false ↔ ∃ w, v = some w ∧ w.isNull = false := by
  cases v with
  | none => simp [isMissing]
  | some w => simp [isMissing]

namespace Table

variable {t : Table} {item key : Item} {p : Item → Bool}

theorem sameKey_eq_agree {a b : Item} (hb : t.Carries b) : t.sameKey a b = t.keys.agree a b := by
  rw [Bool.eq_iff_iff, sameKey_iff, KeySchema.agree, List.all_eq_true]
  refine forall₂_congr fun k hk => ?_
  obtain ⟨v, hv⟩ := Option.isSome_iff_exists.mp (hb k hk)
  simp [hv, Option.any_eq_true]

theorem isIn_keyOf (h : t.keys.IsIn item) : t.keys.IsIn (t.keyOf item) := by
  intro a ha
  rw [get?_keyOf, if_pos ha]
  exact h a ha

/-! ## Tables of rows with full keys -/

/-- Every row has a value for each key attribute, and no two rows have one key. -/
structure FullyKeyed (t : Table) : Prop where
  isIn : ∀ row ∈ t.items, t.keys.IsIn row
  apart : t.items.Pairwise fun a b => t.sameKey a b = false

namespace FullyKeyed

theorem wellKeyed (h : t.FullyKeyed) : t.WellKeyed where
  carries row hrow := carries_of_isIn (h.isIn row hrow)
  apart := h.apart

theorem of_items_eq_nil (h : t.items = []) : t.FullyKeyed := by
  constructor <;> simp [h]

theorem upsert (h : t.FullyKeyed) (hitem : t.keys.IsIn item) : (t.upsert item).FullyKeyed where
  isIn row hrow := by
    rw [t.upsert_keys]
    rcases (h.wellKeyed.mem_upsert (carries_of_isIn hitem)).mp hrow with rfl | ⟨hrow, -⟩
    · exact hitem
    · exact h.isIn row hrow
  apart := (h.wellKeyed.upsert (carries_of_isIn hitem)).apart

theorem remove (h : t.FullyKeyed) (hkey : t.IsKey key) : (t.remove key).FullyKeyed where
  isIn row hrow := by
    rw [t.remove_keys]
    exact h.isIn row ((t.items_remove_sublist key).mem hrow)
  apart := (h.wellKeyed.remove hkey).apart

end FullyKeyed

/-! ## Rows that are left alone -/

/-- Storing a row leaves the rows alone that do not have its key. -/
theorem filter_upsert (hitem : p item = false)
    (hold : ∀ row, t.sameKey row item = true → p row = false) :
    (t.upsert item).items.filter p = t.items.filter p := by
  rcases t.upsert_cases item with ⟨before, old, after, hitems, hsame, hupsert⟩ | ⟨-, hupsert⟩
  · rw [hupsert, hitems]
    simp [hitem, hold old hsame]
  · rw [hupsert]
    simp [hitem]

/-- Dropping a key leaves the rows alone that do not have it. -/
theorem filter_remove (hold : ∀ row, row.hasKey key = true → p row = false) :
    (t.remove key).items.filter p = t.items.filter p := by
  rcases t.remove_cases key with ⟨before, old, after, hitems, hhas, hremove⟩ | ⟨-, hremove⟩
  · rw [hremove, hitems]
    simp [hold old hhas]
  · rw [hremove]

end Table

/-! ## Writes -/

namespace Write

/-- What the write makes of the row that it changes. Only updates change a row. -/
def revise : Write → Item → Checked Item
  | .update _ _ expression attributes => Item.update attributes expression
  | .put _ _ | .delete _ _ => .ok

/-- The write is to a full key, and an update leaves a row with a full key one. -/
structure Fit (t : Table) (w : Write) : Prop where
  isIn : t.keys.IsIn w.row
  isKey : w.isPut = false → t.IsKey w.row
  revised : ∀ item next, t.keys.IsIn item → w.revise item = .ok next → t.keys.IsIn next

/-- An update leaves a row its key. -/
def KeepsKey (keys : KeySchema) (w : Write) : Prop :=
  ∀ item next, w.revise item = .ok next → next.SameOn keys.attributes item

theorem Fit.congr {t t' : Table} {w : Write} (h : w.Fit t) (hkeys : t.keys = t'.keys) :
    w.Fit t' where
  isIn := hkeys ▸ h.isIn
  isKey hput := (h.isKey hput).congr hkeys
  revised := hkeys ▸ h.revised

end Write

namespace Table

variable {t t' : Table} {w : Write} {p : Item → Bool}

/-- The row that an update starts from has the key that the write names. -/
theorem sameKey_getD_find? {key : Item} (hkey : t.IsKey key) :
    t.sameKey ((t.find? key).getD key) key = true := by
  cases hfind : t.find? key with
  | none => exact t.sameKey_refl key
  | some row =>
    rw [Option.getD_some, ← hkey.hasKey]
    exact List.find?_some (p := fun item : Item => item.hasKey key) hfind

/-- An update that keeps the key of the row that it starts from stores a row with the key that it names,
whether or not there was one before. -/
theorem sameKey_of_sameOn {key next : Item} (hkey : t.IsKey key)
    (h : next.SameOn t.keys.attributes ((t.find? key).getD key)) : t.sameKey next key = true := by
  refine sameKey_trans ?_ (sameKey_getD_find? hkey)
  rw [sameKey, ← t.keyOf_eq_of_get?_eq h]
  exact t.sameKey_refl next

theorem exists_of_update {name expression : String} {attributes : Attributes} {key : Item}
    (h : Memory.applyWrite t (.update name key expression attributes) = .ok t') : ∃ next,
      Item.update attributes expression ((t.find? key).getD key) = .ok next ∧ t' = t.upsert next := by
  unfold Memory.applyWrite at h
  dsimp only at h
  split at h
  · rename_i item u hupdate
    obtain ⟨next, hnext, hpair⟩ := exists_of_bind_eq_ok hupdate
    obtain ⟨rfl, rfl⟩ := Prod.mk.inj (Except.ok.inj hpair)
    exact ⟨_, hnext, (Except.ok.inj h).symm⟩
  · cases h

/-- A fit write leaves a table of rows with full keys one. -/
theorem FullyKeyed.applyWrite (h : t.FullyKeyed) (hw : w.Fit t)
    (happly : Memory.applyWrite t w = .ok t') : t'.FullyKeyed := by
  cases w with
  | put name item =>
    obtain rfl := Except.ok.inj happly
    exact h.upsert hw.isIn
  | delete name key =>
    obtain rfl := Except.ok.inj happly
    exact h.remove (hw.isKey rfl)
  | update name key expression attributes =>
    obtain ⟨next, hnext, rfl⟩ := exists_of_update happly
    refine h.upsert (hw.revised _ next ?_ hnext)
    cases hfind : t.find? key with
    | none => exact hw.isIn
    | some row => exact h.isIn row (List.mem_of_find?_eq_some hfind)

/-- A fit write that keeps keys leaves the rows alone that do not have the key that it names. -/
theorem filter_applyWrite (hw : w.Fit t) (hkeeps : w.KeepsKey t.keys)
    (happly : Memory.applyWrite t w = .ok t')
    (hp : ∀ row, t.sameKey row w.row = true → p row = false) :
    t'.items.filter p = t.items.filter p := by
  cases w with
  | put name item =>
    obtain rfl := Except.ok.inj happly
    exact filter_upsert (hp item (t.sameKey_refl item)) hp
  | delete name key =>
    obtain rfl := Except.ok.inj happly
    exact filter_remove fun row hrow => hp row ((hw.isKey rfl).hasKey row ▸ hrow)
  | update name key expression attributes =>
    obtain ⟨next, hnext, rfl⟩ := exists_of_update happly
    have hsame := sameKey_of_sameOn (hw.isKey rfl) (hkeeps _ next hnext)
    exact filter_upsert (hp next hsame) fun row hrow => hp row (sameKey_trans hrow hsame)

end Table

/-! ## Tables under writes -/

/-- The second name continues the first one behind a slash. -/
def IsBelow (outer name : String) : Prop :=
  (outer ++ "/").toList <+: name.toList

instance (outer name : String) : Decidable (IsBelow outer name) :=
  inferInstanceAs (Decidable (_ <+: _))

namespace Fields

variable {tables now : Fields Table} {written more writes : List Write} {w : Write} {name : String}

/-- No name of a table continues the given one behind a slash, and the given one continues none. -/
def Solitary (tables : Fields Table) (name : String) : Prop :=
  ∀ other, (get? tables other).isSome → ¬IsBelow other name ∧ ¬IsBelow name other

/-- The write is to a known table and fit for it, and if the table's name is solitary it keeps keys. -/
def Accepts (tables : Fields Table) (w : Write) : Prop :=
  ∃ t, get? tables w.table = some t ∧ w.Fit t ∧ (tables.Solitary w.table → w.KeepsKey t.keys)

/-- None of the writes names the key of the row. -/
def spared (name : String) (keys : KeySchema) (writes : List Write) (row : Item) : Bool :=
  writes.all fun w => !(decide (w.table = name) && keys.agree row w.row)

/-- What a series of writes may make of tables: each has the keys that it had and rows with full keys, and
in those with a solitary name the rows whose keys are not written are the same rows in the same
order. -/
def Evolves (tables : Fields Table) (written : List Write) (now : Fields Table) : Prop :=
  ∀ name t, get? tables name = some t → ∃ u, get? now name = some u ∧ u.keys = t.keys ∧
    u.FullyKeyed ∧ (tables.Solitary name →
      u.items.filter (spared name t.keys written) = t.items.filter (spared name t.keys written))

theorem spared_append (name : String) (keys : KeySchema) (row : Item) :
    spared name keys (written ++ more) row =
      (spared name keys written row && spared name keys more row) :=
  List.all_append

namespace Evolves

theorem refl (h : ∀ name t, get? tables name = some t → t.FullyKeyed) : Evolves tables [] tables :=
  fun name t ht => ⟨t, ht, rfl, h name t ht, fun _ => rfl⟩

/-- More writes spare fewer rows. -/
theorem mono (h : Evolves tables written now) (more : List Write) :
    Evolves tables (written ++ more) now := by
  intro name t ht
  obtain ⟨u, hu, hkeys, hkeyed, hsame⟩ := h name t ht
  refine ⟨u, hu, hkeys, hkeyed, fun hsolitary => ?_⟩
  have hboth : ∀ rows : List Item, rows.filter (spared name t.keys (written ++ more)) =
      (rows.filter (spared name t.keys written)).filter (spared name t.keys more) := by
    intro rows
    rw [List.filter_filter]
    refine List.filter_congr fun row _ => ?_
    rw [spared_append, Bool.and_comm]
  rw [hboth, hboth, hsame hsolitary]

/-- One write more. -/
theorem step (h : Evolves tables written now) (hw : tables.Accepts w) {u u' : Table}
    (hu : get? now w.table = some u) (happly : Memory.applyWrite u w = .ok u') :
    Evolves tables (written ++ [w]) (insert now w.table u') := by
  intro name t ht
  obtain ⟨v, hv, hkeys, hkeyed, hsame⟩ := h.mono [w] name t ht
  rw [get?_insert]
  split
  · rename_i hname
    subst hname
    obtain rfl := Option.some.inj (hu.symm.trans hv)
    obtain ⟨t', ht', hfit, hkeeps⟩ := hw
    obtain rfl := Option.some.inj (ht.symm.trans ht')
    have hfit := hfit.congr hkeys.symm
    refine ⟨u', rfl, (Memory.keys_of_applyWrite happly).trans hkeys, hkeyed.applyWrite hfit happly,
      fun hsolitary => ?_⟩
    refine (Table.filter_applyWrite hfit (hkeys ▸ hkeeps hsolitary) happly fun row hrow => ?_).trans
      (hsame hsolitary)
    -- A row with the key that is written is not spared.
    rw [Table.sameKey_eq_agree (Table.carries_of_isIn hfit.isIn), hkeys] at hrow
    simp [spared, hrow]
  · exact ⟨v, hv, hkeys, hkeyed, hsame⟩

theorem foldlM_transactOne : ∀ {writes : List Write} {written : List Write} {now : Fields Table}
    {touched : List Memory.RowIdentity} {state : Fields Table × List Memory.RowIdentity},
    Evolves tables written now → (∀ w ∈ writes, tables.Accepts w) →
    writes.foldlM Memory.transactOne (now, touched) = .ok state →
    Evolves tables (written ++ writes) state.1
  | [], written, now, touched, state, h, _, hfold => by
    obtain rfl := Except.ok.inj hfold
    rwa [List.append_nil]
  | w :: writes, written, now, touched, state, h, hwrites, hfold => by
    rw [List.foldlM_cons] at hfold
    obtain ⟨first, hone, hrest⟩ := exists_of_bind_eq_ok hfold
    obtain ⟨u, u', hu, -, happly, rfl⟩ := Memory.transactOne_eq_ok_iff.mp hone
    rw [List.append_cons]
    exact foldlM_transactOne (h.step (hwrites w List.mem_cons_self) hu happly)
      (fun v hv => hwrites v (List.mem_cons_of_mem w hv)) hrest

/-- Whether it succeeds, is refused or meets a failure, a request whose writes are accepted goes on with
the series of writes. -/
theorem receive {m : Memory} (h : Evolves tables written m.tables) {r : Request}
    (hr : ∀ w ∈ r.writes, tables.Accepts w) :
    Evolves tables (written ++ r.writes) (Memory.receive r m).2.tables := by
  rcases m.receive_cases r with ⟨-, hreceive⟩ | ⟨before, fault, after, -, hreceive⟩
  · rw [hreceive]
    rcases m.tables_perform r with hsame | ⟨state, hfold, htables⟩
    · exact hsame ▸ h.mono r.writes
    · exact htables ▸ h.foldlM_transactOne hr hfold
  · rw [hreceive]
    exact h.mono r.writes

end Evolves

end Fields

end KeyedQuery
