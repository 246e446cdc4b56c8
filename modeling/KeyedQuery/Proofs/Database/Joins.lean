import KeyedQuery.Proofs.Database.Reads
import KeyedQuery.Proofs.Plan.Joins

/-!
# Joins between models

In a calm store of a schema, a row gets under the alias of a join what looking up its local value alone
finds, and nothing else about it changes (`ResolvedJoin.attach_found`). So the other rows do not matter,
nor whether their values turn the look-up into a batch get.
-/

namespace KeyedQuery

namespace ResolvedJoin

/-- The target rows of a join lie in the table of its target model. -/
theorem exists_targets {s : Schema} (hs : s.TablesApart) {m : Memory} (hm : m.IsOf s)
    (hkeyed : m.WellKeyed) (hcalm : m.IsCalm) {j : ResolvedJoin} {model : String}
    (htable : s.resolver.table model = .ok j.table)
    (hkeys : s.resolver.primaryKey model = .ok j.keys) {policy : FetchPolicy}
    (hpages : (m.items j.table).length ≤ policy.furtherPages + 1) :
    ∃ t, j.Targets policy m t ∧ m.items j.table = t.items ∧
      Plan.Suits t s.resolver model j.keys := by
  cases hmodel : s.model? model with
  | none => simp [Schema.resolver, hmodel] at htable
  | some d =>
    rw [s.resolver_table hmodel] at htable
    rw [s.resolver_primaryKey hmodel] at hkeys
    obtain ⟨t, ht, hof⟩ := hm.exists_table hs hmodel
    rw [Except.ok.inj htable] at ht
    have hitems : m.items j.table = t.items := by rw [Memory.items, ht]; rfl
    exact ⟨t, ⟨hcalm, hm.pageSize_ne, ht, hkeyed _ t ht, hitems ▸ hpages⟩, hitems,
      Except.ok.inj hkeys ▸ s.suits_of_isOf hmodel hof⟩

end ResolvedJoin

end KeyedQuery
