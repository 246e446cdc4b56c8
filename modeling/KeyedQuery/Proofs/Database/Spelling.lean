import KeyedQuery.Proofs.Patch.Spelling
import KeyedQuery.Proofs.Plan.Spelling

/-!
# Texts and tables go together

What reads send and what patches say (`Database.expressions_fit`). A text names no attribute and spells no
value out: it has placeholders, which its tables explain, and nothing else that could be taken for one or
the other.
-/

namespace KeyedQuery

variable {db : Database} {q : FindQuery} {p : Plan}

theorem Database.asks_findMany_spells (hp : db.plan q = .ok p) :
    Run.Asks (Request.SpellsOut p) (db.findMany q) := by
  unfold findMany
  rw [hp]
  exact Plan.asks_rows_spells (Plan.follows_of_ofQuery hp) db.policy

theorem Database.asks_count_spells (hp : db.plan q = .ok p) :
    Run.Asks (Request.SpellsOut p) (db.count q) := by
  unfold count
  rw [hp]
  exact Plan.asks_countRows_spells (Plan.follows_of_ofQuery hp) db.policy

end KeyedQuery
