import KeyedQuery.Proofs.Patch.Between
import KeyedQuery.Proofs.Store.Transactions
import KeyedQuery.Transaction.Basic

/-!
# Identifiers of rows

A transaction tells rows apart by a text: the table and the groups of the key attributes, with
slashes between them. If neither tables nor key values have slashes of their own, different rows have
different identifiers (`Transaction.groups_of_rowId_eq`). Key values are taken from
`Value.IsKeyPart`; a row with such a key has another such key only if it is its own
(`Table.hasKey_iff`).
-/

namespace KeyedQuery

/-! ## Texts without slashes -/

/-- No part of the text can be taken for a separator of an identifier. -/
def IsSlashFree (s : String) : Prop :=
  '/' ∉ s.toList

instance (s : String) : Decidable (IsSlashFree s) :=
  inferInstanceAs (Decidable ('/' ∉ s.toList))

theorem append_slash_inj {a b r s : List Char} (ha : '/' ∉ a) (hb : '/' ∉ b)
    (h : a ++ '/' :: r = b ++ '/' :: s) : a = b ∧ r = s := by
  obtain ⟨rfl, hrest⟩ := append_inj_of_mark ha hb (by simp) (by simp) h
  exact ⟨rfl, List.tail_eq_of_cons_eq hrest⟩

theorem toList_slash : "/".toList = ['/'] :=
  rfl

/-- Texts without slashes can be read off their concatenation with slashes between them. -/
theorem intercalate_slash_inj : ∀ {xs ys : List String}, (∀ x ∈ xs, IsSlashFree x) →
    (∀ y ∈ ys, IsSlashFree y) → xs ≠ [] → ys ≠ [] →
    "/".intercalate xs = "/".intercalate ys → xs = ys
  | [], _, _, _, hne, _, _ => absurd rfl hne
  | _, [], _, _, _, hne, _ => absurd rfl hne
  | [x], [y], _, _, _, _, h => by
    rw [String.intercalate_singleton, String.intercalate_singleton] at h
    rw [h]
  | [x], y :: y' :: ys, hx, _, _, _, h => by
    rw [String.intercalate_singleton, String.intercalate_cons_cons] at h
    refine absurd (hx x List.mem_cons_self) fun hfree => hfree ?_
    rw [h]
    simp [toList_slash]
  | x :: x' :: xs, [y], _, hy, _, _, h => by
    rw [String.intercalate_singleton, String.intercalate_cons_cons] at h
    refine absurd (hy y List.mem_cons_self) fun hfree => hfree ?_
    rw [← h]
    simp [toList_slash]
  | x :: x' :: xs, y :: y' :: ys, hx, hy, _, _, h => by
    rw [String.intercalate_cons_cons, String.intercalate_cons_cons] at h
    have hlist := congrArg String.toList h
    simp only [String.toList_append, toList_slash, List.append_assoc, List.singleton_append]
      at hlist
    obtain ⟨hfirst, hrest⟩ := append_slash_inj (hx x List.mem_cons_self) (hy y List.mem_cons_self)
      hlist
    rw [String.toList_inj.mp hfirst,
      intercalate_slash_inj (fun z hz => hx z (List.mem_cons_of_mem _ hz))
        (fun z hz => hy z (List.mem_cons_of_mem _ hz)) (by simp) (by simp)
        (String.toList_inj.mp hrest)]

/-! ## Values of key attributes -/

namespace Value

/-- An integer that patches can change, or a text without slashes. -/
def IsKeyPart : Value → Prop
  | .num (.int n) => n.natAbs < Patch.integerBound
  | .str s => IsSlashFree s
  | _ => False

instance (v : Value) : Decidable v.IsKeyPart := by
  unfold IsKeyPart
  split <;> infer_instance

theorem IsKeyPart.isPlain {v : Value} (h : v.IsKeyPart) : v.IsPlain := by
  unfold IsKeyPart at h
  split at h
  · exact Nat.lt_trans h (by decide +kernel)
  · trivial
  · cases h

theorem IsKeyPart.isNull {v : Value} (h : v.IsKeyPart) : v.isNull = false := by
  cases v <;> first | rfl | exact absurd h id

theorem IsKeyPart.groupKey {v : Value} (h : v.IsKeyPart) : IsSlashFree v.groupKey := by
  unfold IsKeyPart at h
  split at h
  · rename_i n
    have hbound : n.natAbs < Binary64.integerBound := Nat.lt_trans h (by decide +kernel)
    have htext : (Value.num (.int n)).groupKey = "n:" ++ toString n := by
      show "n:" ++ Number.groupText (.int n) = _
      have hinteger : (Number.int n).toBinary64.integer? = some n := Binary64.integer?_ofInt hbound
      rw [Number.groupText, hinteger]
    rw [htext, IsSlashFree, String.toList_append, List.mem_append, not_or]
    refine ⟨by decide, fun hmem => ?_⟩
    rcases isDigit_or_minus_of_mem_toString hmem with hdigit | heq
    · exact absurd hdigit (by decide)
    · exact absurd heq (by decide)
  · rename_i s
    show IsSlashFree ("s:" ++ s)
    rw [IsSlashFree, String.toList_append, List.mem_append, not_or]
    exact ⟨by decide, h⟩
  · cases h

theorem IsKeyPart.patchable {v : Value} (h : v.IsKeyPart) (levels : Nat) :
    v.Patchable (levels + 1) := by
  unfold IsKeyPart at h
  split at h
  · exact .int h
  · exact .str _
  · cases h

/-- Key values are told apart by their groups. -/
theorem IsKeyPart.eq_of_groupKey {v w : Value} (hv : v.IsKeyPart) (hw : w.IsKeyPart)
    (h : v.groupKey = w.groupKey) : v = w :=
  (agrees_iff_eq_of_isPlain hv.isPlain hw.isPlain).mp (agrees_of_groupKey_eq h)

end Value

/-- Rows of such values can be patched. -/
theorem Item.patchable_of_isKeyPart {item : Item} (ho : Fields.Ordered item)
    (h : ∀ field ∈ item, field.2.IsKeyPart) : item.Patchable :=
  .map ho fun field hfield => (h field hfield).patchable _

/-! ## Rows with such keys -/

namespace Table

variable {t : Table} {item key key' : Item}

/-- Every key attribute of the row has such a value. -/
def HasKeyParts (t : Table) (item : Item) : Prop :=
  ∀ a ∈ t.keys.attributes, ∃ v, Fields.get? item a = some v ∧ v.IsKeyPart

instance (t : Table) (item : Item) : Decidable (t.HasKeyParts item) :=
  decidable_of_iff (∀ a ∈ t.keys.attributes, (Fields.get? item a).any fun v => v.IsKeyPart)
    (forall₂_congr fun a _ => by simp [Option.any_eq_true])

theorem HasKeyParts.carries (h : t.HasKeyParts item) : t.Carries item := by
  intro a ha
  obtain ⟨v, hv, -⟩ := h a ha
  rw [hv]
  rfl

theorem HasKeyParts.isKeyPart (h : t.HasKeyParts key) (hkey : t.IsKey key) {a : String} {v : Value}
    (hv : Fields.get? key a = some v) : a ∈ t.keys.attributes ∧ v.IsKeyPart := by
  rw [← hkey.keyOf_eq, get?_keyOf] at hv
  split at hv
  · rename_i ha
    obtain ⟨w, hw, hpart⟩ := h a ha
    obtain rfl := Option.some.inj (hw.symm.trans hv)
    exact ⟨ha, hpart⟩
  · cases hv

theorem HasKeyParts.keyOf (h : t.HasKeyParts item) : t.HasKeyParts (t.keyOf item) := by
  intro a ha
  rw [get?_keyOf, if_pos ha]
  exact h a ha

theorem IsKey.ordered (h : t.IsKey key) : Fields.Ordered key :=
  h.keyOf_eq ▸ t.ordered_keyOf key

/-- A row has a key exactly if it is its own. -/
theorem hasKey_iff (hitem : t.HasKeyParts item) (hkey : t.IsKey key) (hparts : t.HasKeyParts key) :
    item.hasKey key = true ↔ t.keyOf item = key := by
  rw [Item.hasKey_iff hkey.ordered]
  constructor
  · intro hall
    refine (t.ordered_keyOf item).ext hkey.ordered fun a => ?_
    rw [get?_keyOf]
    split
    · rename_i ha
      obtain ⟨v, hv, hpart⟩ := hparts a ha
      obtain ⟨w, hw, hagrees⟩ := hall a v hv
      obtain ⟨w', hw', hpart'⟩ := hitem a ha
      obtain rfl := Option.some.inj (hw'.symm.trans hw)
      rw [hw, hv, (Value.agrees_iff_eq_of_isPlain hpart'.isPlain hpart.isPlain).mp hagrees]
    · rename_i ha
      cases hv : Fields.get? key a with
      | none => rfl
      | some v => exact absurd (hparts.isKeyPart hkey hv).1 ha
  · rintro rfl a v hv
    rw [get?_keyOf] at hv
    split at hv
    · exact ⟨v, hv, v.agrees_refl⟩
    · cases hv

theorem IsKey.ne_nil (h : t.IsKey key) : key ≠ [] := by
  rintro rfl
  have hcarries := h.carries t.keys.partition List.mem_cons_self
  simp at hcarries

theorem IsKey.names_eq (h : t.IsKey key) (h' : t.IsKey key') :
    Fields.names key = Fields.names key' := by
  have hmem : ∀ {k : Item}, t.IsKey k → ∀ a, a ∈ Fields.names k ↔ a ∈ t.keys.attributes := by
    intro k hk a
    rw [← Fields.isSome_get?_iff]
    constructor
    · intro hsome
      rw [← hk.keyOf_eq, get?_keyOf] at hsome
      by_contra ha
      rw [if_neg ha] at hsome
      cases hsome
    · exact hk.carries a
  exact h.ordered.names_eq h'.ordered fun a => by rw [hmem h, hmem h']

theorem HasKeyParts.forall_isKeyPart (h : t.HasKeyParts key) (hkey : t.IsKey key) :
    ∀ field ∈ key, field.2.IsKeyPart :=
  fun _ hfield => (h.isKeyPart hkey (hkey.ordered.get?_of_mem hfield)).2

/-- Keys of one table are told apart by their groups. -/
theorem IsKey.eq_of_groupKeys (hkey : t.IsKey key) (hkey' : t.IsKey key') (h : t.HasKeyParts key)
    (h' : t.HasKeyParts key')
    (hgroups : (key.map fun field => field.2.groupKey) = key'.map fun field => field.2.groupKey) :
    key = key' := by
  have hnames := hkey.names_eq hkey'
  have hgroup := (Fields.groups_eq_iff hnames hkey.ordered.nodup).mp hgroups
  refine hkey.ordered.ext hkey'.ordered fun a => ?_
  cases hv : Fields.get? key a with
  | none =>
    rw [Fields.get?_eq_none_iff, hnames, ← Fields.get?_eq_none_iff] at hv
    exact hv.symm
  | some v =>
    have hmem : a ∈ Fields.names key' := by
      rw [← hnames, ← Fields.isSome_get?_iff, hv]
      rfl
    obtain ⟨w, hw⟩ := Option.isSome_iff_exists.mp (Fields.isSome_get?_iff.mpr hmem)
    rw [hw, (h.isKeyPart hkey hv).2.eq_of_groupKey (h'.isKeyPart hkey' hw).2 (hgroup a v w hv hw)]

end Table

/-! ## Identifiers -/

namespace Transaction

variable {t : Table} {key key' : Item} {name name' : String}

theorem rowId_eq (hne : key ≠ []) : rowId name key =
    "/".intercalate (name :: key.map fun field => field.2.groupKey) := by
  cases key with
  | nil => exact absurd rfl hne
  | cons field rest =>
    rw [rowId, List.map_cons, String.intercalate_cons_cons]

/-- Rows with one identifier are in one table, and their keys have the same groups. -/
theorem groups_of_rowId_eq (hname : IsSlashFree name) (hname' : IsSlashFree name')
    (hkey : ∀ field ∈ key, field.2.IsKeyPart) (hkey' : ∀ field ∈ key', field.2.IsKeyPart)
    (hne : key ≠ []) (hne' : key' ≠ []) (h : rowId name key = rowId name' key') :
    name = name' ∧
      (key.map fun field => field.2.groupKey) = key'.map fun field => field.2.groupKey := by
  rw [rowId_eq hne, rowId_eq hne'] at h
  have hfree : ∀ {n : String} {k : Item}, IsSlashFree n → (∀ field ∈ k, field.2.IsKeyPart) →
      ∀ x ∈ n :: k.map (fun field => field.2.groupKey), IsSlashFree x := by
    intro n k hn hk x hx
    rcases List.mem_cons.mp hx with rfl | hx
    · exact hn
    · obtain ⟨field, hfield, rfl⟩ := List.mem_map.mp hx
      exact (hk field hfield).groupKey
  exact List.cons.inj (intercalate_slash_inj (hfree hname hkey) (hfree hname' hkey') (by simp)
    (by simp) h)

end Transaction

end KeyedQuery
