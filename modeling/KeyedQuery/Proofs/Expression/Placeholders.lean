import KeyedQuery.Expression.Parser
import KeyedQuery.Proofs.Expression.Scan
import KeyedQuery.Proofs.Fields
import KeyedQuery.Proofs.Value.Text
import Mathlib.Data.List.Nodup

/-!
# Handing out placeholders

Tokens are handed out while an expression is written and looked up in the finished tables. What a
token stands for never changes as further ones are handed out (`Placeholders.le_trans` and the
`mono` lemmas), so what is known of a part of an expression holds under the final tables.

`Placeholders.Writes m Q` says that under every later table `r` the result of `m` satisfies `Q r`;
`Writes.bind` composes such facts along the writer.
-/

namespace KeyedQuery

namespace Placeholders

variable {p q r : Placeholders} {α β : Type}

/-! ## Tables -/

theorem nameToken_injective : Function.Injective nameToken := fun _ _ h =>
  toString_nat_injective (String.append_right_inj _ |>.mp h)

theorem valueToken_injective : Function.Injective valueToken := fun _ _ h =>
  toString_nat_injective (String.append_right_inj _ |>.mp h)

theorem get?_mapIdx {token : Nat → String} (ht : Function.Injective token) (xs : List α) (i : Nat) :
    Fields.get? (Fields.ofList (xs.mapIdx fun i x => (token i, x))) (token i) = xs[i]? := by
  have hnames : Fields.names (xs.mapIdx fun i x => (token i, x)) =
      (List.range xs.length).map token := by
    refine List.ext_getElem (by simp [Fields.names]) fun n hn hn' => ?_
    simp [Fields.names]
  have hnodup : (Fields.names (xs.mapIdx fun i x => (token i, x))).Nodup := by
    rw [hnames]
    exact List.Nodup.map ht List.nodup_range
  rw [Fields.get?_ofList hnodup]
  cases hx : xs[i]? with
  | none =>
    refine Fields.get?_eq_none_iff.mpr ?_
    rw [hnames, List.mem_map]
    rintro ⟨j, hj, hji⟩
    obtain rfl := ht hji
    exact absurd (List.mem_range.mp hj) (Nat.not_lt.mpr (List.getElem?_eq_none_iff.mp hx))
  | some x =>
    refine Fields.get?_of_mem_of_nodup hnodup (List.mem_mapIdx.mpr ?_)
    obtain ⟨hi, hx⟩ := List.getElem?_eq_some_iff.mp hx
    exact ⟨i, hi, by rw [hx]⟩

/-- The token stands for an attribute name. -/
def Names (p : Placeholders) (token field : String) : Prop :=
  ∃ i, token = nameToken i ∧ p.names[i]? = some field

/-- The token stands for a value. -/
def Holds (p : Placeholders) (token : String) (v : Value) : Prop :=
  ∃ i, token = valueToken i ∧ p.values[i]? = some v

theorem Names.nameOf {token field : String} (h : p.Names token field) :
    Expression.nameOf p.attributes (some (.name token)) = .ok field := by
  obtain ⟨i, rfl, hi⟩ := h
  have hget : Fields.get? p.attributes.names (nameToken i) = some field :=
    (get?_mapIdx nameToken_injective p.names i).trans hi
  simp only [Expression.nameOf, hget]

theorem Holds.valueOf {token : String} {v : Value} (h : p.Holds token v) :
    Expression.valueOf p.attributes (some (.value token)) = .ok v := by
  obtain ⟨i, rfl, hi⟩ := h
  have hget : Fields.get? p.attributes.values (valueToken i) = some v :=
    (get?_mapIdx valueToken_injective p.values i).trans hi
  simp only [Expression.valueOf, hget]

theorem Names.reads {token field : String} (h : p.Names token field) :
    Token.Reads token [.name token] ∧ Token.EndsWord token.toList := by
  obtain ⟨i, rfl, -⟩ := h
  exact ⟨Token.reads_nameToken i, Token.endsWord_nameToken i⟩

theorem Holds.reads {token : String} {v : Value} (h : p.Holds token v) :
    Token.Reads token [.value token] ∧ Token.EndsWord token.toList := by
  obtain ⟨i, rfl, -⟩ := h
  exact ⟨Token.reads_valueToken i, Token.endsWord_valueToken i⟩

/-! ## Growing -/

/-- The second table has the tokens of the first, and perhaps further ones. -/
instance : LE Placeholders :=
  ⟨fun p q => p.names <+: q.names ∧ p.values <+: q.values⟩

theorem le_refl (p : Placeholders) : p ≤ p :=
  ⟨List.prefix_rfl, List.prefix_rfl⟩

theorem le_trans (hpq : p ≤ q) (hqr : q ≤ r) : p ≤ r :=
  ⟨hpq.1.trans hqr.1, hpq.2.trans hqr.2⟩

theorem getElem?_of_prefix {xs ys : List α} (h : xs <+: ys) {i : Nat} {x : α}
    (hi : xs[i]? = some x) : ys[i]? = some x := by
  obtain ⟨hlt, rfl⟩ := List.getElem?_eq_some_iff.mp hi
  exact List.prefix_iff_getElem?.mp h i hlt

theorem Names.mono {token field : String} (h : p.Names token field) (hpq : p ≤ q) :
    q.Names token field := by
  obtain ⟨i, ht, hi⟩ := h
  exact ⟨i, ht, getElem?_of_prefix hpq.1 hi⟩

theorem Holds.mono {token : String} {v : Value} (h : p.Holds token v) (hpq : p ≤ q) :
    q.Holds token v := by
  obtain ⟨i, ht, hi⟩ := h
  exact ⟨i, ht, getElem?_of_prefix hpq.2 hi⟩

/-- Every shared token stands for a value with the text under which it is shared. -/
def SharesByText (p : Placeholders) : Prop :=
  ∀ key token, Fields.get? p.shared key = some token → ∃ v, p.Holds token v ∧ v.text = key

/-! ## Writers -/

/-- Whatever is written later, the result satisfies the property under the tables there are
then. -/
def Writes (m : StateM Placeholders α) (Q : Placeholders → α → Prop) : Prop :=
  ∀ p, p.SharesByText →
    p ≤ (m p).2 ∧ (m p).2.SharesByText ∧ ∀ r, (m p).2 ≤ r → Q r (m p).1

theorem Writes.pure {Q : Placeholders → α → Prop} {a : α} (h : ∀ r, Q r a) :
    Writes (Pure.pure a) Q :=
  fun p hp => ⟨le_refl p, hp, fun r _ => h r⟩

theorem Writes.bind {P : Placeholders → α → Prop} {Q : Placeholders → β → Prop}
    {m : StateM Placeholders α} {f : α → StateM Placeholders β} (hm : Writes m P)
    (hf : ∀ a, Writes (f a) fun r b => P r a → Q r b) : Writes (m >>= f) Q := by
  intro p hp
  obtain ⟨hle, hshares, hP⟩ := hm p hp
  obtain ⟨hle', hshares', hQ⟩ := hf (m p).1 (m p).2 hshares
  exact ⟨le_trans hle hle', hshares', fun r hr => hQ r hr (hP r (le_trans hle' hr))⟩

theorem Writes.imp {P Q : Placeholders → α → Prop} {m : StateM Placeholders α} (hm : Writes m P)
    (h : ∀ r a, P r a → Q r a) : Writes m Q := by
  intro p hp
  obtain ⟨hle, hshares, hP⟩ := hm p hp
  exact ⟨hle, hshares, fun r hr => h r _ (hP r hr)⟩

/-- A finished writer's result satisfies the property under its own tables. -/
theorem Writes.run {Q : Placeholders → α → Prop} {m : StateM Placeholders α} (h : Writes m Q) :
    Q (m {}).2 (m {}).1 := by
  have hempty : SharesByText {} := fun key token h => by simp at h
  exact (h {} hempty).2.2 _ (le_refl _)

theorem writes_name (field : String) : Writes (name field) fun r token => r.Names token field := by
  intro p hp
  unfold name
  cases hi : p.names.idxOf? field with
  | some i =>
    have hget : p.names[i]? = some field := by
      obtain ⟨hlt, hfield, -⟩ := List.idxOf?_eq_some_iff.mp hi
      rw [List.getElem?_eq_getElem hlt, hfield]
    have hnames : p.Names (nameToken i) field := ⟨i, rfl, hget⟩
    exact ⟨le_refl p, hp, fun r hr => hnames.mono hr⟩
  | none =>
    have hle : p ≤ { p with names := p.names ++ [field] } :=
      ⟨List.prefix_append _ _, List.prefix_rfl⟩
    have hnames : Names { p with names := p.names ++ [field] } (nameToken p.names.length) field :=
      ⟨_, rfl, by simp⟩
    refine ⟨hle, fun key token h => ?_, fun r hr => hnames.mono hr⟩
    obtain ⟨v, hv, htext⟩ := hp key token h
    exact ⟨v, hv.mono hle, htext⟩

theorem writes_value (v : Value) : Writes (value v) fun r token => r.Holds token v := by
  intro p hp
  have hle : p ≤ { p with values := p.values ++ [v] } :=
    ⟨List.prefix_rfl, List.prefix_append _ _⟩
  have hholds : Holds { p with values := p.values ++ [v] } (valueToken p.values.length) v :=
    ⟨_, rfl, by simp⟩
  refine ⟨hle, fun key token h => ?_, fun r hr => hholds.mono hr⟩
  obtain ⟨w, hw, htext⟩ := hp key token h
  exact ⟨w, hw.mono hle, htext⟩

/-- A value shared by its text gets a token that stands for it: no other value has this text. -/
theorem writes_sharedValue (v : Value) :
    Writes (sharedValue v.text v) fun r token => r.Holds token v := by
  intro p hp
  unfold sharedValue
  cases ht : Fields.get? p.shared v.text with
  | some token =>
    obtain ⟨w, hw, htext⟩ := hp _ _ ht
    obtain rfl := Value.text_injective htext
    exact ⟨le_refl p, hp, fun r hr => hw.mono hr⟩
  | none =>
    obtain ⟨hle, hshares, hholds⟩ := writes_value v p hp
    refine ⟨hle, fun key token h => ?_, hholds⟩
    change Fields.get? (Fields.insert p.shared v.text (valueToken p.values.length)) key = _ at h
    rw [Fields.get?_insert] at h
    split at h
    · rename_i hkey
      obtain rfl := Option.some.inj h
      exact ⟨v, hholds _ (le_refl _), hkey⟩
    · exact hshares key token h

/-! ## Writers that share nothing -/

/-- The tokens without the record of the shared ones. -/
def unshared (p : Placeholders) : Placeholders := { p with shared := [] }

/-- The writer neither uses a shared token nor hands one out. -/
def NeverShares (m : StateM Placeholders α) : Prop :=
  ∀ p : Placeholders, (m p.unshared).1 = (m p).1 ∧ (m p.unshared).2 = (m p).2.unshared

theorem NeverShares.pure (a : α) : NeverShares (Pure.pure a) := fun _ => ⟨rfl, rfl⟩

theorem NeverShares.bind {m : StateM Placeholders α} {f : α → StateM Placeholders β}
    (hm : NeverShares m) (hf : ∀ a, NeverShares (f a)) : NeverShares (m >>= f) := by
  intro p
  obtain ⟨hresult, hstate⟩ := hm p
  show (f (m p.unshared).1 (m p.unshared).2).1 = _ ∧ (f (m p.unshared).1 (m p.unshared).2).2 = _
  rw [hresult, hstate]
  exact hf (m p).1 (m p).2

theorem neverShares_name (field : String) : NeverShares (name field) := by
  intro p
  unfold name unshared
  cases p.names.idxOf? field <;> exact ⟨rfl, rfl⟩

theorem neverShares_value (v : Value) : NeverShares (value v) := fun _ => ⟨rfl, rfl⟩

theorem neverShares_mapM {f : α → StateM Placeholders β} (hf : ∀ a, NeverShares (f a)) :
    ∀ as : List α, NeverShares (as.mapM f)
  | [] => NeverShares.pure []
  | a :: as => by
    rw [List.mapM_cons]
    exact (hf a).bind fun b => (neverShares_mapM hf as).bind fun bs => NeverShares.pure _

/-- What is known of a writer that shares nothing holds under all tables, whatever is shared there. -/
theorem Writes.of_neverShares {Q : Placeholders → α → Prop} {m : StateM Placeholders α}
    (hm : Writes m Q) (h : NeverShares m) (hr : (m p).2 ≤ r) : Q r (m p).1 := by
  have hnone : p.unshared.SharesByText := fun key token h => by simp [unshared] at h
  have hQ := (hm p.unshared hnone).2.2
  rw [(h p).1, (h p).2] at hQ
  exact hQ r hr

end Placeholders

end KeyedQuery
