import KeyedQuery.Database.Writes
import KeyedQuery.Proofs.Store.Keys

/-!
# Keys of rows of a model

The key of a row is told if the row has a value for every key attribute, and it is then the row's key in
the table (`Table.keyOf_cases`). Otherwise the first attribute without a value is reported.
-/

namespace KeyedQuery

/-- The row has a value for every key attribute. -/
def KeySchema.IsIn (keys : KeySchema) (row : Item) : Prop :=
  ∀ a ∈ keys.attributes, Value.isMissing (Fields.get? row a) = false

theorem KeySchema.valuesOf_cases (item : Item) : ∀ attributes : List String,
    (valuesOf item attributes =
        .ok (attributes.filterMap fun a => (Fields.get? item a).map fun v => (a, v)) ∧
      ∀ a ∈ attributes, Value.isMissing (Fields.get? item a) = false) ∨
    ∃ a ∈ attributes, Value.isMissing (Fields.get? item a) = true ∧
      valuesOf item attributes = .error a
  | [] => .inl ⟨rfl, by simp⟩
  | a :: attributes => by
    rw [valuesOf]
    cases hmissing : Value.isMissing (Fields.get? item a) with
    | true =>
      have hnone : ((Fields.get? item a).filter fun v => !v.isNull) = none := by
        cases hget : Fields.get? item a with
        | none => rfl
        | some v =>
          have hnull : v.isNull = true := by rwa [hget] at hmissing
          simp [hnull]
      exact .inr ⟨a, List.mem_cons_self, hmissing, by rw [hnone]⟩
    | false =>
      obtain ⟨v, hget, hnull⟩ : ∃ v, Fields.get? item a = some v ∧ v.isNull = false := by
        cases hget : Fields.get? item a with
        | none =>
          rw [hget] at hmissing
          cases hmissing
        | some v =>
          rw [hget] at hmissing
          exact ⟨v, rfl, hmissing⟩
      have hsome : ((Fields.get? item a).filter fun v => !v.isNull) = some v := by simp [hget, hnull]
      rw [hsome]
      rcases valuesOf_cases item attributes with ⟨hvalues, hall⟩ | ⟨b, hb, hnone, herror⟩
      · exact .inl ⟨by rw [hvalues]; simp [hget, Except.map], List.forall_mem_cons.mpr ⟨hmissing, hall⟩⟩
      · exact .inr ⟨b, List.mem_cons_of_mem a hb, hnone, by rw [herror]; rfl⟩

namespace Table

variable {t : Table} {item key : Item}

/-- The key of a row is told as its table has it, or a key attribute is reported that has no value. -/
theorem keyOf_cases (t : Table) (item : Item) :
    (t.keys.keyOf item = .ok (t.keyOf item) ∧ t.keys.IsIn item) ∨
    ∃ a ∈ t.keys.attributes, Value.isMissing (Fields.get? item a) = true ∧
      t.keys.keyOf item = .error a := by
  unfold KeySchema.keyOf
  rcases KeySchema.valuesOf_cases item t.keys.attributes with ⟨hvalues, hall⟩ | ⟨a, ha, hnone, herror⟩
  · exact .inl ⟨by rw [hvalues]; rfl, hall⟩
  · exact .inr ⟨a, ha, hnone, by rw [herror]; rfl⟩

theorem carries_of_isIn (h : t.keys.IsIn item) : t.Carries item := by
  intro a ha
  have hvalue := h a ha
  cases hget : Fields.get? item a with
  | none =>
    rw [hget] at hvalue
    cases hvalue
  | some v => rfl

theorem keyOf_eq_ok_iff : t.keys.keyOf item = .ok key ↔ t.keyOf item = key ∧ t.keys.IsIn item := by
  rcases t.keyOf_cases item with ⟨hok, hin⟩ | ⟨a, ha, hnone, herror⟩
  · rw [hok, Except.ok.injEq]
    exact (and_iff_left hin).symm
  · rw [herror]
    refine iff_of_false nofun fun ⟨_, hin⟩ => ?_
    rw [hin a ha] at hnone
    cases hnone

/-- A row whose key can be told carries it. -/
theorem of_rowKey_eq_ok {model : String} (h : Database.rowKey model t.keys item = .ok key) :
    t.keyOf item = key ∧ t.Carries item := by
  unfold Database.rowKey at h
  rcases t.keyOf_cases item with ⟨hok, hin⟩ | ⟨a, -, -, herror⟩
  · rw [hok] at h
    exact ⟨Except.ok.inj h, carries_of_isIn hin⟩
  · rw [herror] at h
    cases h

end Table

end KeyedQuery
