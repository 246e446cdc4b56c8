import KeyedQuery.Proofs.Store.Transactions
import KeyedQuery.Transaction.Buffer

/-!
# Writes by row

A write is to a place, a key of a table (`Write.place`). Keys whose values agree are keys of one row,
whether or not the values are equal, so different places may be of one row (`Place.SameRow`). A buffer
looks for writes by agreement. It holds at most one write to each row (`WriteBuffer.OnePerRow`), and
staging a write keeps it so, in place of the write to its row or behind the others
(`WriteBuffer.OnePerRow.stage`).
-/

namespace KeyedQuery

/-! ## Positions -/

theorem lastPosition?_cases {α : Type} (p : α → Bool) : ∀ xs : List α,
    (∃ before x after, xs = before ++ x :: after ∧ p x = true ∧ (∀ y ∈ after, p y = false) ∧
      lastPosition? p xs = some before.length) ∨
      ((∀ x ∈ xs, p x = false) ∧ lastPosition? p xs = none)
  | [] => .inr ⟨by simp, rfl⟩
  | x :: xs => by
    rcases lastPosition?_cases p xs with ⟨before, y, after, rfl, hy, hafter, hlast⟩ | ⟨hnone, hlast⟩
    · exact .inl ⟨x :: before, y, after, rfl, hy, hafter, by rw [lastPosition?, hlast]; rfl⟩
    · cases hx : p x with
      | true => exact .inl ⟨[], x, xs, rfl, hx, hnone, by rw [lastPosition?, hlast]; simp [hx]⟩
      | false =>
        refine .inr ⟨fun y hy => ?_, by rw [lastPosition?, hlast]; simp [hx]⟩
        rcases List.mem_cons.mp hy with rfl | hy
        · exact hx
        · exact hnone y hy

/-! ## Rows -/

/-- A key of a table. -/
structure Place where
  /-- The table's name. -/
  table : String
  /-- The key attributes. -/
  key : Item
deriving DecidableEq

namespace Table

variable {t : Table} {a b : Item}

theorem sameKey_keyOf (t : Table) (a b : Item) : t.sameKey (t.keyOf a) b = t.sameKey a b := by
  rw [Bool.eq_iff_iff, sameKey_iff, sameKey_iff]
  refine forall₂_congr fun k hk => forall₂_congr fun v _ => ?_
  rw [get?_keyOf, if_pos hk]

end Table

namespace Place

variable {tables : Fields Table} {t : Table} {p q r : Place}

/-- The table is known, and the key is one of its keys. -/
def IsKeyed (tables : Fields Table) (p : Place) : Prop :=
  ∃ t, Fields.get? tables p.table = some t ∧ t.IsKey p.key

/-- The places are keys of one table whose values agree. -/
def SameRow (p q : Place) : Prop :=
  p.table = q.table ∧ p.key.hasKey q.key = true ∧ q.key.hasKey p.key = true

instance (p q : Place) : Decidable (p.SameRow q) :=
  inferInstanceAs (Decidable (_ ∧ _ ∧ _))

theorem SameRow.symm (h : p.SameRow q) : q.SameRow p :=
  ⟨h.1.symm, h.2.2, h.2.1⟩

theorem IsKeyed.isKey (h : p.IsKeyed tables) (ht : Fields.get? tables p.table = some t) :
    t.IsKey p.key := by
  obtain ⟨u, hu, hkey⟩ := h
  obtain rfl := Option.some.inj (hu.symm.trans ht)
  exact hkey

theorem IsKeyed.sameRow_iff (hp : p.IsKeyed tables) (hq : q.IsKeyed tables) :
    p.SameRow q ↔ p.table = q.table ∧ p.key.hasKey q.key = true := by
  refine ⟨fun h => ⟨h.1, h.2.1⟩, fun ⟨htable, hkey⟩ => ⟨htable, hkey, ?_⟩⟩
  obtain ⟨t, ht, hpkey⟩ := hp
  have hqkey := hq.isKey (htable ▸ ht)
  rw [hqkey.hasKey] at hkey
  rw [hpkey.hasKey]
  exact Table.sameKey_symm hqkey.carries hkey

theorem IsKeyed.sameRow_refl (hp : p.IsKeyed tables) : p.SameRow p := by
  refine (hp.sameRow_iff hp).mpr ⟨rfl, ?_⟩
  obtain ⟨t, -, hkey⟩ := hp
  rw [hkey.hasKey]
  exact t.sameKey_refl p.key

theorem SameRow.trans (hp : p.IsKeyed tables) (hq : q.IsKeyed tables) (hr : r.IsKeyed tables)
    (hpq : p.SameRow q) (hqr : q.SameRow r) : p.SameRow r := by
  refine (hp.sameRow_iff hr).mpr ⟨hpq.1.trans hqr.1, ?_⟩
  obtain ⟨t, ht, hpkey⟩ := hp
  have hqkey := hq.isKey (hpq.1 ▸ ht)
  have hrkey := hr.isKey (hqr.1 ▸ hpq.1 ▸ ht)
  have hleft := hpq.2.1
  have hright := hqr.2.1
  rw [hqkey.hasKey] at hleft
  rw [hrkey.hasKey] at hright ⊢
  exact Table.sameKey_trans hleft hright

/-- A row that has a key has every key of the same row. -/
theorem SameRow.hasKey (hp : p.IsKeyed tables) (hq : q.IsKeyed tables) (h : p.SameRow q) {item : Item}
    (hitem : item.hasKey p.key = true) : item.hasKey q.key = true := by
  obtain ⟨t, ht, hpkey⟩ := hp
  have hqkey := hq.isKey (h.1 ▸ ht)
  have hkeys := h.2.1
  rw [hpkey.hasKey] at hitem
  rw [hqkey.hasKey] at hkeys ⊢
  exact Table.sameKey_trans hitem hkeys

/-- Keys of one table that a row has are keys of one row. -/
theorem IsKeyed.sameRow_of_hasKey (hp : p.IsKeyed tables) (hq : q.IsKeyed tables)
    (htable : p.table = q.table) {item : Item} (h : item.hasKey p.key = true)
    (h' : item.hasKey q.key = true) : p.SameRow q := by
  refine (hp.sameRow_iff hq).mpr ⟨htable, ?_⟩
  obtain ⟨t, ht, hpkey⟩ := hp
  have hqkey := hq.isKey (htable ▸ ht)
  rw [hpkey.hasKey] at h
  rw [hqkey.hasKey] at h' ⊢
  exact Table.sameKey_trans (Table.sameKey_symm hpkey.carries h) h'

end Place

namespace Write

variable {tables : Fields Table} {t : Table} {v w : Write} {p : Place}

/-- The write puts a whole row. -/
def isPut : Write → Bool
  | .put _ _ => true
  | _ => false

/-- The place that is written. -/
def place (tables : Fields Table) (w : Write) : Place :=
  ⟨w.table, ((Fields.get? tables w.table).map fun t => t.keyOf w.row).getD []⟩

theorem place_eq (ht : Fields.get? tables w.table = some t) :
    w.place tables = ⟨w.table, t.keyOf w.row⟩ := by
  rw [place, ht]
  rfl

/-- The write changes a stored row. -/
def isUpdate : Write → Bool
  | .update _ _ _ _ => true
  | _ => false

/-- The write is to a known table, and its row carries a key there; if it is not put whole it is that
key. -/
def IsKeyed (tables : Fields Table) (w : Write) : Prop :=
  ∃ t, Fields.get? tables w.table = some t ∧ t.Carries w.row ∧ (w.isPut = false → t.IsKey w.row)

theorem IsKeyed.place (h : w.IsKeyed tables) : (w.place tables).IsKeyed tables := by
  obtain ⟨t, ht, hcarries, -⟩ := h
  rw [place_eq ht]
  exact ⟨t, ht, Table.isKey_keyOf hcarries⟩

/-- The writes that a key finds are those to its row. -/
theorem IsKeyed.targets_iff (h : w.IsKeyed tables) (hp : p.IsKeyed tables) :
    w.table = p.table ∧ w.targets p.key = true ↔ (w.place tables).SameRow p := by
  rw [h.place.sameRow_iff hp]
  obtain ⟨t, ht, -, -⟩ := h
  rw [place_eq ht]
  refine and_congr_right fun htable => ?_
  have hkey := hp.isKey (htable ▸ ht)
  rw [targets, hkey.hasKey, hkey.hasKey, Table.sameKey_keyOf]

/-- Writes are to one row if their places are. -/
theorem IsKeyed.sameRow_iff (hv : v.IsKeyed tables) (hw : w.IsKeyed tables) :
    v.SameRow tables w ↔ (v.place tables).SameRow (w.place tables) := by
  obtain ⟨t, ht, -, -⟩ := hv
  obtain ⟨u, hu, -, -⟩ := hw
  rw [place_eq ht, place_eq hu]
  refine and_congr_right fun htable => ?_
  rw [← htable, ht] at hu
  obtain rfl := Option.some.inj hu
  have hagree : t.KeysAgree v.row w.row ↔
      (t.keyOf v.row).hasKey (t.keyOf w.row) = true ∧
        (t.keyOf w.row).hasKey (t.keyOf v.row) = true := by
    rw [Table.KeysAgree, ← t.sameKey_keyOf v.row, ← t.sameKey_keyOf w.row]
    rfl
  simp only [ht, Option.mem_def, Option.some.injEq, exists_eq_left', hagree]

theorem IsKeyed.isSome_partition (h : w.IsKeyed tables) (ht : Fields.get? tables w.table = some t) :
    (Fields.get? w.row t.keys.partition).isSome := by
  obtain ⟨u, hu, hcarries, -⟩ := h
  obtain rfl := Option.some.inj (hu.symm.trans ht)
  exact hcarries _ List.mem_cons_self

/-- Writes to different rows are told apart in a transaction of the store. -/
theorem IsKeyed.identity?_apart {m : Memory} (hv : v.IsKeyed m.tables) (hw : w.IsKeyed m.tables)
    (h : ¬(v.place m.tables).SameRow (w.place m.tables)) :
    ∀ i ∈ v.identity? m.tables, i ∉ w.identity? m.tables :=
  Memory.identity?_apart (fun _ => hv.isSome_partition) (fun _ => hw.isSome_partition)
    fun hsame => h ((hv.sameRow_iff hw).mp hsame)

end Write

/-! ## Buffers -/

namespace WriteBuffer

variable {tables : Fields Table} {b b' : WriteBuffer} {v w : Write} {p : Place}

/-- The buffer takes writes, and the writes that it holds have keys, are to different rows, and are
not too many for one transaction. -/
structure OnePerRow (tables : Fields Table) (b : WriteBuffer) : Prop where
  active : b.status = .active
  length_le : b.writes.length ≤ maxTransactionWrites
  keyed : ∀ w ∈ b.writes, w.IsKeyed tables
  apart : b.writes.Pairwise fun v w => ¬(v.place tables).SameRow (w.place tables)

namespace OnePerRow

theorem empty (tables : Fields Table) : OnePerRow tables {} :=
  ⟨rfl, Nat.zero_le _, by simp, .nil⟩

theorem requireActive (h : b.OnePerRow tables) : b.requireActive = .ok () := by
  rw [WriteBuffer.requireActive, if_pos h.active]

/-- Writes to one row are one write. -/
theorem eq_of_sameRow (h : b.OnePerRow tables) (hv : v ∈ b.writes) (hw : w ∈ b.writes)
    (hsame : (v.place tables).SameRow (w.place tables)) : v = w := by
  by_contra hne
  have hsymm : Std.Symm fun v w : Write => ¬(v.place tables).SameRow (w.place tables) :=
    ⟨fun _ _ hnot hsame => hnot hsame.symm⟩
  exact h.apart.forall hv hw hne hsame

/-- Either the buffer holds a write to the row, or none. -/
theorem position?_cases (h : b.OnePerRow tables) (hp : p.IsKeyed tables) :
    (∃ before w after, b.writes = before ++ w :: after ∧ (w.place tables).SameRow p ∧
      b.position? p.table p.key = some before.length) ∨
      ((∀ w ∈ b.writes, ¬(w.place tables).SameRow p) ∧ b.position? p.table p.key = none) := by
  rcases lastPosition?_cases (fun w : Write => w.table = p.table ∧ w.targets p.key) b.writes with
    ⟨before, w, after, hwrites, hw, -, hlast⟩ | ⟨hnone, hlast⟩
  · have hmem : w ∈ b.writes := hwrites ▸ List.mem_append_right before List.mem_cons_self
    exact .inl ⟨before, w, after, hwrites,
      ((h.keyed w hmem).targets_iff hp).mp (of_decide_eq_true hw), hlast⟩
  · refine .inr ⟨fun w hw hsame => ?_, hlast⟩
    exact of_decide_eq_false (hnone w hw) (((h.keyed w hw).targets_iff hp).mpr hsame)

/-- The pending write of a row is one to it. -/
theorem of_pending (h : b.OnePerRow tables) (hp : p.IsKeyed tables)
    (hpending : b.pending p.table p.key = .ok (some w)) :
    w ∈ b.writes ∧ (w.place tables).SameRow p := by
  unfold WriteBuffer.pending at hpending
  rw [h.requireActive] at hpending
  have hsome : ((b.position? p.table p.key).bind fun i => b.writes[i]?) = some w :=
    Except.ok.inj hpending
  rcases h.position?_cases hp with ⟨before, v, after, hwrites, hv, hposition⟩ | ⟨-, hposition⟩
  · rw [hposition, Option.bind_some, hwrites] at hsome
    obtain rfl : v = w := by simpa using hsome
    exact ⟨hwrites ▸ List.mem_append_right before List.mem_cons_self, hv⟩
  · rw [hposition] at hsome
    cases hsome

/-- A staged write takes the place of the one to its row, or stands behind the others. -/
theorem stage_cases (h : b.OnePerRow tables) (hp : p.IsKeyed tables) (htable : w.table = p.table)
    (hstage : b.stage w p.key = .ok b') :
    (∃ before old after, b.writes = before ++ old :: after ∧ (old.place tables).SameRow p ∧
      b' = { b with writes := before ++ w :: after }) ∨
      ((∀ v ∈ b.writes, ¬(v.place tables).SameRow p) ∧ b.writes.length < maxTransactionWrites ∧
        b' = { b with writes := b.writes ++ [w] }) := by
  unfold WriteBuffer.stage at hstage
  rw [h.requireActive, htable] at hstage
  rcases h.position?_cases hp with ⟨before, old, after, hwrites, hold, hposition⟩ | ⟨hnone, hposition⟩
  · rw [hposition] at hstage
    refine .inl ⟨before, old, after, hwrites, hold, ?_⟩
    rw [← Except.ok.inj hstage, hwrites]
    simp
  · rw [hposition] at hstage
    change b.add w = Except.ok b' at hstage
    unfold add at hstage
    rw [h.requireActive] at hstage
    change (if maxTransactionWrites ≤ b.writes.length then
        Except.error (Fault.transactionLimit maxTransactionWrites)
      else Except.ok { b with writes := b.writes ++ [w] }) = Except.ok b' at hstage
    split at hstage
    · cases hstage
    · exact .inr ⟨hnone, by omega, (Except.ok.inj hstage).symm⟩

/-- A staged write is in the buffer with the writes to other rows. -/
theorem mem_stage (h : b.OnePerRow tables) (hp : p.IsKeyed tables) (htable : w.table = p.table)
    (hstage : b.stage w p.key = .ok b') :
    v ∈ b'.writes ↔ v = w ∨ v ∈ b.writes ∧ ¬(v.place tables).SameRow p := by
  rcases h.stage_cases hp htable hstage with
    ⟨before, old, after, hwrites, hold, rfl⟩ | ⟨hnone, -, rfl⟩
  · have hothers : ∀ v ∈ before ++ after, ¬(v.place tables).SameRow p := by
      intro v hv hsame
      have hperm : b.writes.Perm (old :: (before ++ after)) := hwrites ▸ List.perm_middle
      have hapart := (hperm.pairwise_iff fun hnot hsame => hnot hsame.symm).mp h.apart
      have hkeyed := h.keyed v (hperm.symm.subset (List.mem_cons_of_mem _ hv))
      have holdKeyed := h.keyed old (hperm.symm.subset List.mem_cons_self)
      exact (List.pairwise_cons.mp hapart).1 v hv
        (hold.trans holdKeyed.place hp hkeyed.place hsame.symm)
    rw [hwrites]
    simp only [List.mem_append, List.mem_cons] at hothers ⊢
    constructor
    · rintro (hv | rfl | hv)
      · exact .inr ⟨.inl hv, hothers v (.inl hv)⟩
      · exact .inl rfl
      · exact .inr ⟨.inr (.inr hv), hothers v (.inr hv)⟩
    · rintro (rfl | ⟨hv | rfl | hv, hnot⟩)
      · exact .inr (.inl rfl)
      · exact .inl hv
      · exact absurd hold hnot
      · exact .inr (.inr hv)
  · simp only [List.mem_append, List.mem_singleton]
    constructor
    · rintro (hv | rfl)
      · exact .inr ⟨hv, hnone v hv⟩
      · exact .inl rfl
    · rintro (rfl | ⟨hv, -⟩)
      · exact .inr rfl
      · exact .inl hv

/-- Staging a write for its row keeps one write a row. -/
theorem stage (h : b.OnePerRow tables) (hw : w.IsKeyed tables) (hp : p.IsKeyed tables)
    (hsame : (w.place tables).SameRow p) (hstage : b.stage w p.key = .ok b') :
    b'.OnePerRow tables := by
  have htable : w.table = p.table := hsame.1
  have hkeyed : ∀ v ∈ b'.writes, v.IsKeyed tables := by
    intro v hv
    rcases (h.mem_stage hp htable hstage).mp hv with rfl | ⟨hv, -⟩
    · exact hw
    · exact h.keyed v hv
  rcases h.stage_cases hp htable hstage with
    ⟨before, old, after, hwrites, hold, rfl⟩ | ⟨hnone, hlt, rfl⟩
  · have hmiddle : ∀ x : Write, (before ++ x :: after).Perm (x :: (before ++ after)) := fun _ =>
      List.perm_middle
    refine ⟨h.active, ?_, hkeyed, ?_⟩
    · have hlength := h.length_le
      rw [hwrites] at hlength
      simpa using hlength
    · have hapart := h.apart
      rw [hwrites, (hmiddle old).pairwise_iff fun hnot hsame => hnot hsame.symm,
        List.pairwise_cons] at hapart
      rw [(hmiddle w).pairwise_iff fun hnot hsame => hnot hsame.symm, List.pairwise_cons]
      refine ⟨fun v hv hwv => hapart.1 v hv ?_, hapart.2⟩
      have hold' := h.keyed old (hwrites ▸ List.mem_append_right before List.mem_cons_self)
      have hv' := hkeyed v ((hmiddle w).symm.subset (List.mem_cons_of_mem w hv))
      exact hold.trans hold'.place hp hv'.place (hsame.symm.trans hp hw.place hv'.place hwv)
  · refine ⟨h.active, by simpa using Nat.succ_le_of_lt hlt, hkeyed, ?_⟩
    refine List.pairwise_append.mpr ⟨h.apart, List.pairwise_singleton _ _, fun v hv u hu hvu => ?_⟩
    obtain rfl := List.mem_singleton.mp hu
    exact hnone v hv (hvu.trans (h.keyed v hv).place hw.place hp hsame)

end OnePerRow

end WriteBuffer

end KeyedQuery
