import KeyedQuery.Catalog.Document
import KeyedQuery.Plan.Basic
import KeyedQuery.Query.Document

/-!
# Plan documents

Plans and their parts written as values.
-/

namespace KeyedQuery

/-- A strategy as a value. -/
def Strategy.toValue (s : Strategy) : Value :=
  let details := match s with
    | .secondaryIndexQuery index => [("index_name", Value.str index)]
    | .multiQuery index field => [("index_name", .str index), ("field", .str field)]
    | _ => []
  .map (Fields.ofList (("kind", .str s.kind) :: details))

/-- A key match as a value. -/
def KeyMatch.toValue (m : KeyMatch) : Value :=
  .map (Fields.ofList
    [("index_name", .ofText? m.index), ("key_schema", m.keys.toValue),
      ("partition", .ofNat m.partition), ("sort", .ofSize? m.sort), ("score", .ofNat m.score)])

/-- A resolved join as a value. -/
def ResolvedJoin.toValue (j : ResolvedJoin) : Value :=
  .map (Fields.ofList
    [("target_model", .str j.targetModel), ("table", .str j.table),
      ("key_schema", j.keys.toValue), ("relation", .str j.relation.text),
      ("local_field", .str j.localField), ("foreign_field", .str j.foreignField),
      ("cap", .ofNat j.cap), ("alias", .str j.label)])

/-- Directives as a value. -/
def Directives.toValue (d : Directives) : Value :=
  .map (Fields.ofList
    [("base_strategy", d.baseStrategy.toValue),
      ("join_strategies", .list (d.joinStrategies.map Strategy.toValue)),
      ("requires_client_filter", .bool d.clientFilter),
      ("requires_client_sort", .bool d.clientSort),
      ("server_side_sort", .ofText? (d.serverSort.map SortDirection.text)),
      ("fetch_limit", .ofSize? d.fetchLimit)])

/-- A plan as a value. -/
def Plan.toValue (p : Plan) : Value :=
  .map (Fields.ofList
    [("model", .str p.model), ("table", .str p.table), ("key_schema", p.keys.toValue),
      ("conditions", .list (p.conditions.map NormalizedCondition.toValue)),
      ("sort", .ofOption (p.sort.map SortSpec.toValue)), ("limit", .ofSize? p.limit),
      ("offset", .ofNat p.offset), ("select", .ofOption (p.select.map Value.ofTexts)),
      ("joins", .list (p.joins.map ResolvedJoin.toValue)),
      ("key_match", .ofOption (p.keyMatch.map KeyMatch.toValue)),
      ("directives", p.directives.toValue), ("base_strategy", .str p.directives.baseStrategy.kind),
      ("has_or", .bool p.hasChoice)])

end KeyedQuery
