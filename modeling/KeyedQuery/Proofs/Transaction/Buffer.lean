import KeyedQuery.Proofs.Transaction.RowId
import KeyedQuery.Proofs.Transaction.Rows

/-!
# Writes by place

Where key values are such that a transaction can tell them apart, each row has one place
(`Place.IsIn.sameRow_iff`). The writes of a sound buffer are to different places (`WriteBuffer.Sound`), so
it holds at most one write to each (`WriteBuffer.write?`), and that one is pending. Staging a write keeps
the buffer sound and makes it the write to its place, whether there was one or not
(`WriteBuffer.Sound.stage`, `WriteBuffer.Sound.write?_stage`).
-/

namespace KeyedQuery

/-! ## Places -/

namespace Place

variable {tables : Fields Table} {t : Table} {p q : Place}

/-- The table is known, and the key consists of values for its key attributes. -/
def IsIn (tables : Fields Table) (p : Place) : Prop :=
  ∃ t, Fields.get? tables p.table = some t ∧ t.IsKey p.key ∧ t.HasKeyParts p.key

theorem IsIn.isKey (h : p.IsIn tables) (ht : Fields.get? tables p.table = some t) :
    t.IsKey p.key ∧ t.HasKeyParts p.key := by
  obtain ⟨t', ht', hkey⟩ := h
  obtain rfl := Option.some.inj (ht'.symm.trans ht)
  exact hkey

theorem IsIn.isKeyed (h : p.IsIn tables) : p.IsKeyed tables := by
  obtain ⟨t, ht, hkey, -⟩ := h
  exact ⟨t, ht, hkey⟩

/-- Places of such values are of one row only if they are equal. -/
theorem IsIn.sameRow_iff (hp : p.IsIn tables) (hq : q.IsIn tables) : p.SameRow q ↔ p = q := by
  rw [hp.isKeyed.sameRow_iff hq.isKeyed]
  obtain ⟨t, ht, hkey, hparts⟩ := hp
  constructor
  · rintro ⟨htable, hhas⟩
    obtain ⟨hkey', hparts'⟩ := hq.isKey (htable ▸ ht)
    have hkeys := (Table.hasKey_iff hparts hkey' hparts').mp hhas
    rw [hkey.keyOf_eq] at hkeys
    cases p
    cases q
    simp_all
  · rintro rfl
    exact ⟨rfl, (Table.hasKey_iff hparts hkey hparts).mpr hkey.keyOf_eq⟩

/-- The place of a row of a table. -/
theorem isIn_keyOf {name : String} {item : Item} (ht : Fields.get? tables name = some t)
    (hparts : t.HasKeyParts item) : IsIn tables ⟨name, t.keyOf item⟩ :=
  ⟨t, ht, Table.isKey_keyOf hparts.carries, hparts.keyOf⟩

/-- What tells the place from others in a transaction of the store. -/
def identity (p : Place) : Memory.RowIdentity :=
  (p.table, p.key.map fun field => field.2.groupKey)

/-- Different places have different identities. -/
theorem IsIn.eq_of_identity_eq (hp : p.IsIn tables) (hq : q.IsIn tables)
    (h : p.identity = q.identity) : p = q := by
  obtain ⟨t, ht, hkey, hparts⟩ := hp
  obtain ⟨u, hu, hkey', hparts'⟩ := hq
  obtain ⟨htable, hgroups⟩ := Prod.mk.inj h
  rw [← htable, ht] at hu
  obtain rfl := Option.some.inj hu
  have hkeys := hkey.eq_of_groupKeys hkey' hparts hparts' hgroups
  cases p
  cases q
  simp_all

/-- The identifier by which a transaction knows the place. -/
def id (p : Place) : String :=
  Transaction.rowId p.table p.key

/-- Different places have different identifiers. -/
theorem IsIn.eq_of_id_eq (hp : p.IsIn tables) (hq : q.IsIn tables) (hpfree : IsSlashFree p.table)
    (hqfree : IsSlashFree q.table) (h : p.id = q.id) : p = q := by
  have ⟨t, _, hkey, hparts⟩ := hp
  have ⟨u, _, hkey', hparts'⟩ := hq
  obtain ⟨htable, hgroups⟩ := Transaction.groups_of_rowId_eq hpfree hqfree
    (hparts.forall_isKeyPart hkey) (hparts'.forall_isKeyPart hkey') hkey.ne_nil hkey'.ne_nil h
  exact hp.eq_of_identity_eq hq (Prod.ext htable hgroups)

end Place

namespace Write

variable {tables : Fields Table} {t : Table} {w : Write} {p : Place}

/-- The write is to a known table, and its row has a key there; if it is not put whole it is that
key. -/
def Fits (tables : Fields Table) (w : Write) : Prop :=
  ∃ t, Fields.get? tables w.table = some t ∧ t.HasKeyParts w.row ∧
    (w.isPut = false → t.IsKey w.row)

theorem Fits.isIn (h : w.Fits tables) : (w.place tables).IsIn tables := by
  obtain ⟨t, ht, hparts, -⟩ := h
  rw [place_eq ht]
  exact Place.isIn_keyOf ht hparts

theorem Fits.isKeyed (h : w.Fits tables) : w.IsKeyed tables := by
  obtain ⟨t, ht, hparts, hkey⟩ := h
  exact ⟨t, ht, hparts.carries, hkey⟩

end Write

/-! ## Buffers -/

namespace WriteBuffer

variable {tables : Fields Table} {b b' : WriteBuffer} {w : Write} {p : Place}

/-- The buffer takes writes, and the writes that it holds fit the tables, are to different places,
and are not too many for one transaction. -/
structure Sound (tables : Fields Table) (b : WriteBuffer) : Prop where
  active : b.status = .active
  length_le : b.writes.length ≤ maxTransactionWrites
  fits : ∀ w ∈ b.writes, w.Fits tables
  apart : (b.writes.map (Write.place tables)).Nodup

/-- The write to a place. -/
def write? (b : WriteBuffer) (p : Place) : Option Write :=
  (b.position? p.table p.key).bind fun i => b.writes[i]?

namespace Sound

/-- Writes to different places are to different rows. -/
theorem onePerRow (h : b.Sound tables) : b.OnePerRow tables where
  active := h.active
  length_le := h.length_le
  keyed w hw := (h.fits w hw).isKeyed
  apart := (List.pairwise_map.mp h.apart).imp_of_mem fun hv hw hne hsame =>
    hne (((h.fits _ hv).isIn.sameRow_iff (h.fits _ hw).isIn).mp hsame)

theorem requireActive (h : b.Sound tables) : b.requireActive = .ok () :=
  h.onePerRow.requireActive

theorem pending (h : b.Sound tables) (p : Place) :
    b.pending p.table p.key = .ok (b.write? p) := by
  unfold WriteBuffer.pending
  rw [h.requireActive]
  rfl

/-- Either the buffer holds a write to the place, or none. -/
theorem position?_cases (h : b.Sound tables) (hp : p.IsIn tables) :
    (∃ before w after, b.writes = before ++ w :: after ∧ w.place tables = p ∧
      b.position? p.table p.key = some before.length) ∨
      ((∀ w ∈ b.writes, w.place tables ≠ p) ∧ b.position? p.table p.key = none) := by
  rcases h.onePerRow.position?_cases hp.isKeyed with
    ⟨before, w, after, hwrites, hsame, hposition⟩ | ⟨hnone, hposition⟩
  · have hmem : w ∈ b.writes := hwrites ▸ List.mem_append_right before List.mem_cons_self
    exact .inl ⟨before, w, after, hwrites, ((h.fits w hmem).isIn.sameRow_iff hp).mp hsame, hposition⟩
  · exact .inr ⟨fun w hw heq => hnone w hw (((h.fits w hw).isIn.sameRow_iff hp).mpr heq), hposition⟩

theorem eq_of_place_eq (h : b.Sound tables) {v : Write} (hv : v ∈ b.writes) (hw : w ∈ b.writes)
    (hplace : v.place tables = w.place tables) : v = w :=
  List.inj_on_of_nodup_map h.apart hv hw hplace

theorem write?_eq_some_iff (h : b.Sound tables) (hp : p.IsIn tables) :
    b.write? p = some w ↔ w ∈ b.writes ∧ w.place tables = p := by
  unfold write?
  rcases h.position?_cases hp with ⟨before, v, after, hwrites, hv, hposition⟩ | ⟨hnone, hposition⟩
  · have hmem : v ∈ b.writes := by
      rw [hwrites]
      exact List.mem_append_right before List.mem_cons_self
    have hget : b.writes[before.length]? = some v := by simp [hwrites]
    rw [hposition, Option.bind_some, hget, Option.some.injEq]
    constructor
    · rintro rfl
      exact ⟨hmem, hv⟩
    · rintro ⟨hw, hplace⟩
      exact h.eq_of_place_eq hmem hw (hv.trans hplace.symm)
  · rw [hposition, Option.bind_none]
    refine ⟨nofun, ?_⟩
    rintro ⟨hw, hplace⟩
    exact absurd hplace (hnone w hw)

theorem write?_eq_none_iff (h : b.Sound tables) (hp : p.IsIn tables) :
    b.write? p = none ↔ ∀ w ∈ b.writes, w.place tables ≠ p := by
  rw [Option.eq_none_iff_forall_ne_some]
  simp only [ne_eq, h.write?_eq_some_iff hp, not_and]

/-- A staged write is in the buffer with the writes to other places. -/
theorem mem_stage (h : b.Sound tables) (hw : w.Fits tables) {key : Item}
    (hkey : (w.place tables).key = key) (hstage : b.stage w key = .ok b') {v : Write} :
    v ∈ b'.writes ↔ v = w ∨ v ∈ b.writes ∧ v.place tables ≠ w.place tables := by
  subst hkey
  rw [h.onePerRow.mem_stage hw.isIn.isKeyed rfl hstage]
  refine or_congr_right (and_congr_right fun hv => not_congr ?_)
  exact (h.fits v hv).isIn.sameRow_iff hw.isIn

/-- Staging a write keeps the buffer sound. -/
theorem stage (h : b.Sound tables) (hw : w.Fits tables) {key : Item}
    (hkey : (w.place tables).key = key) (hstage : b.stage w key = .ok b') : b'.Sound tables := by
  have hfits : ∀ v ∈ b'.writes, v.Fits tables := by
    intro v hv
    rcases (h.mem_stage hw hkey hstage).mp hv with rfl | ⟨hv, -⟩
    · exact hw
    · exact h.fits v hv
  subst hkey
  have hrows := h.onePerRow.stage hw.isKeyed hw.isIn.isKeyed hw.isIn.isKeyed.sameRow_refl hstage
  refine ⟨hrows.active, hrows.length_le, hfits, List.pairwise_map.mpr ?_⟩
  refine hrows.apart.imp_of_mem fun hv hu hnot heq => hnot ?_
  exact ((hfits _ hv).isIn.sameRow_iff (hfits _ hu).isIn).mpr heq

/-- A staged write is the one to its place, and the other places keep theirs. -/
theorem write?_stage (h : b.Sound tables) (hw : w.Fits tables) {key : Item}
    (hkey : (w.place tables).key = key) (hstage : b.stage w key = .ok b') (hp : p.IsIn tables) :
    b'.write? p = if p = w.place tables then some w else b.write? p := by
  have hsound := h.stage hw hkey hstage
  refine Option.ext fun v => ?_
  rw [hsound.write?_eq_some_iff hp, h.mem_stage hw hkey hstage]
  split
  · rename_i heq
    subst heq
    rw [Option.some.injEq]
    constructor
    · rintro ⟨rfl | ⟨-, hne⟩, hplace⟩
      · rfl
      · exact absurd hplace hne
    · rintro rfl
      exact ⟨.inl rfl, rfl⟩
  · rename_i hne
    rw [h.write?_eq_some_iff hp]
    constructor
    · rintro ⟨rfl | ⟨hv, -⟩, hplace⟩
      · exact absurd hplace.symm hne
      · exact ⟨hv, hplace⟩
    · rintro ⟨hv, hplace⟩
      exact ⟨.inr ⟨hv, fun heq => hne (hplace.symm.trans heq)⟩, hplace⟩

end Sound

end WriteBuffer

end KeyedQuery
