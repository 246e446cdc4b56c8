import KeyedQuery.Proofs.Plan.Strategy
import Mathlib.Data.List.Forall2
import Mathlib.Data.List.Perm.Basic

/-!
# What a strategy depends on

The strategy for some conditions, and the key match behind it, depend on which required equalities and
memberships there are, hardly on where they stand. Other conditions among them change nothing but the
positions of the match (`KeyMatch.placeless_find`, `Strategy.ofConditions_congr`). In another order the
conditions may lead to another index, but to a strategy of the same kind, with as many key attributes
fixed (`KeyMatch.summary_find`, `Strategy.kind_ofConditions`). A plan takes over the strategy of its
normalized conditions, so the same holds of the plans of a query (`Plan.depends_on_conditions`).
-/

namespace KeyedQuery

variable {r : Resolver} {model : String} {conditions conditions' : List NormalizedCondition}

/-- A required equality or membership, the conditions that can lead to a strategy. -/
def NormalizedCondition.matters (c : NormalizedCondition) : Bool :=
  c.connector = .and ∧ (c.operator = .eq ∨ c.operator = .isIn)

theorem NormalizedCondition.matters_of_isKeyEquality {c : NormalizedCondition}
    (h : c.isKeyEquality = true) : c.matters = true := by
  simp only [isKeyEquality, decide_eq_true_eq] at h
  simp [matters, h.1, h.2]

theorem NormalizedCondition.matters_of_isKeyMembership {c : NormalizedCondition}
    (h : c.isKeyMembership = true) : c.matters = true := by
  simp only [isKeyMembership, decide_eq_true_eq] at h
  simp [matters, h.1, h.2.1]

/-- Lists with the same conditions of a kind have the same conditions of each kind within it. -/
theorem filter_congr_of_imp {α : Type} {p q : α → Bool} (himp : ∀ a, q a = true → p a = true)
    {xs ys : List α} (h : xs.filter p = ys.filter p) : xs.filter q = ys.filter q := by
  have hboth : ∀ zs : List α, zs.filter q = (zs.filter p).filter q := by
    intro zs
    rw [List.filter_filter]
    exact List.filter_congr fun a _ => by
      cases hq : q a with
      | false => rfl
      | true => rw [himp a hq]; rfl
  rw [hboth xs, hboth ys, h]

namespace KeyMatch

/-! ## Matches without their positions -/

/-- The match with its positions forgotten, but for whether there is one on the sort attribute. -/
def placeless (m : KeyMatch) : KeyMatch :=
  { m with partition := 0, sort := m.sort.map fun _ => 0 }

/-- Whether a match is of an index, how many key attributes it fixes, and whether the sort attribute is
one of them. -/
def summary (m : KeyMatch) : Bool × Nat × Bool :=
  (m.index.isSome, m.score, m.sort.isSome)

theorem summary_placeless (m : KeyMatch) : m.placeless.summary = m.summary := by
  simp [summary, placeless]

theorem isSome_findEquality {field : String} :
    (findEquality conditions field).isSome = true ↔
      ∃ c ∈ conditions, c.isKeyEquality = true ∧ c.field = field ∧ c.value.isNull = false := by
  simp [findEquality, List.findIdx?_isSome, List.any_eq_true]

/-- The two lists have required equalities on the same attributes, those with null left out. -/
def SameFixed (conditions conditions' : List NormalizedCondition) : Prop :=
  ∀ field, (findEquality conditions field).isSome = (findEquality conditions' field).isSome

theorem sameFixed_of_mem_iff
    (h : ∀ c, c.isKeyEquality = true → (c ∈ conditions ↔ c ∈ conditions')) :
    SameFixed conditions conditions' := by
  intro field
  rw [Bool.eq_iff_iff, isSome_findEquality, isSome_findEquality]
  constructor
  · rintro ⟨c, hc, hkey, hrest⟩
    exact ⟨c, (h c hkey).mp hc, hkey, hrest⟩
  · rintro ⟨c, hc, hkey, hrest⟩
    exact ⟨c, (h c hkey).mpr hc, hkey, hrest⟩

theorem placeless_ofPartition (h : SameFixed conditions conditions') (index : Option String)
    (keys : KeySchema) (position position' : Nat) :
    (ofPartition conditions index keys position).placeless =
      (ofPartition conditions' index keys position').placeless := by
  have hsome : (keys.sort.bind (findEquality conditions)).isSome =
      (keys.sort.bind (findEquality conditions')).isSome := by
    cases keys.sort with
    | none => rfl
    | some field => exact h field
  have hmap : (keys.sort.bind (findEquality conditions)).map (fun _ => 0) =
      (keys.sort.bind (findEquality conditions')).map fun _ => 0 := by
    cases hi : keys.sort.bind (findEquality conditions) <;>
      cases hj : keys.sort.bind (findEquality conditions') <;> simp [hi, hj] at hsome ⊢
  simp only [placeless, ofPartition, hsome, hmap]

/-! ## Candidates -/

/-- The matches of indexes, one for each required equality on an indexed attribute, in order. -/
def candidates (r : Resolver) (model : String) (conditions : List NormalizedCondition) :
    List KeyMatch :=
  (conditions.mapIdx (ofIndex? r model conditions)).filterMap id

theorem find_eq (r : Resolver) (model : String) (conditions : List NormalizedCondition) :
    find r model conditions = (r.primaryKey model >>= fun keys =>
      match findEquality conditions keys.partition with
      | some position => .ok (some (ofPartition conditions none keys position))
      | none => .ok ((candidates r model conditions).foldl better none)) :=
  rfl

/-- What the candidate of a condition is but for its positions, which is the same wherever the condition
stands. -/
def candidate? (r : Resolver) (model : String) (conditions : List NormalizedCondition)
    (c : NormalizedCondition) : Option KeyMatch :=
  (ofIndex? r model conditions 0 c).map placeless

theorem candidate?_congr (h : SameFixed conditions conditions') (c : NormalizedCondition)
    (position : Nat) : (ofIndex? r model conditions position c).map placeless =
      candidate? r model conditions' c := by
  unfold candidate? ofIndex?
  split
  · rw [Option.map_map, Option.map_map]
    exact congrArg (Option.map · _) (funext fun index => placeless_ofPartition h _ _ _ _)
  · rfl

theorem candidates_placeless (h : SameFixed conditions conditions') :
    (candidates r model conditions).map placeless =
      (conditions.filter NormalizedCondition.isKeyEquality).filterMap
        (candidate? r model conditions') := by
  have hnone : ∀ c : NormalizedCondition, ¬c.isKeyEquality = true →
      candidate? r model conditions' c = none := by
    intro c hc
    simp [candidate?, ofIndex?, hc]
  rw [candidates, List.map_filterMap, List.mapIdx_eq_zipIdx_map, List.filterMap_map,
    List.filterMap_filter]
  conv_rhs => rw [← List.zipIdx_map_fst 0 conditions, List.filterMap_map]
  refine List.filterMap_congr ?_
  rintro ⟨c, position⟩ -
  simp only [Function.comp_apply, id_eq, candidate?_congr h c position]
  by_cases hc : c.isKeyEquality = true
  · simp [hc]
  · simp [hc, hnone c hc]

/-! ## The best candidate -/

/-- The best match depends on the scores, not on the positions. -/
theorem foldl_better_placeless (ms : List KeyMatch) : ∀ best : Option KeyMatch,
    (ms.foldl better best).map placeless =
      (ms.map placeless).foldl better (best.map placeless) := by
  induction ms with
  | nil => exact fun _ => rfl
  | cons m ms ih =>
    intro best
    rw [List.foldl_cons, ih, List.map_cons, List.foldl_cons]
    congr 1
    cases best with
    | none => rfl
    | some b =>
      show (if b.score < m.score then some m else some b).map placeless =
        if b.score < m.score then some m.placeless else some b.placeless
      split <;> rfl

/-- The higher one of two scores. -/
def betterScore (best : Option Nat) (m : KeyMatch) : Option Nat :=
  some (max (best.getD 0) m.score)

theorem foldl_better_score (ms : List KeyMatch) : ∀ best : Option KeyMatch,
    (ms.foldl better best).map score = ms.foldl betterScore (best.map score) := by
  induction ms with
  | nil => exact fun _ => rfl
  | cons m ms ih =>
    intro best
    rw [List.foldl_cons, ih, List.foldl_cons]
    congr 1
    cases best with
    | none => simp [better, betterScore]
    | some b =>
      show (if b.score < m.score then some m else some b).map score = some (max b.score m.score)
      split <;> rename_i hlt
      · rw [Option.map_some, Nat.max_eq_right (Nat.le_of_lt hlt)]
      · rw [Option.map_some, Nat.max_eq_left (Nat.le_of_not_lt hlt)]

instance : RightCommutative betterScore where
  right_comm best m m' := by simp [betterScore, Nat.max_comm m.score]

/-- The highest score is the same in whatever order the matches are compared. -/
theorem foldl_better_perm {ms ms' : List KeyMatch} (h : (ms.map placeless).Perm (ms'.map placeless)) :
    (ms.foldl better none).map score = (ms'.foldl better none).map score := by
  have hplaceless : ∀ ns : List KeyMatch, (ns.foldl better none).map score =
      ((ns.map placeless).foldl better none).map score := by
    intro ns
    rw [← Option.map_none (f := placeless), ← foldl_better_placeless, Option.map_map]
    rfl
  rw [hplaceless ms, hplaceless ms', foldl_better_score, foldl_better_score, h.foldl_eq]

theorem summary_of_mem_candidates {m : KeyMatch} (h : m ∈ candidates r model conditions) :
    m.summary = (true, m.score, decide (m.score = 2)) := by
  obtain ⟨found, hfound, rfl⟩ := List.mem_filterMap.mp h
  obtain ⟨i, hi, hindex⟩ := List.mem_mapIdx.mp hfound
  unfold ofIndex? at hindex
  split at hindex
  · obtain ⟨index, -, rfl⟩ := Option.map_eq_some_iff.mp hindex
    simp only [summary, ofPartition]
    split <;> rename_i hsort <;> simp [hsort]
  · cases hindex

/-- The best candidate's score says all of its summary. -/
theorem summary_foldl_better : ((candidates r model conditions).foldl better none).map summary =
    (((candidates r model conditions).foldl better none).map score).map
      fun n => (true, n, decide (n = 2)) := by
  rw [Option.map_map]
  cases h : (candidates r model conditions).foldl better none with
  | none => rfl
  | some m =>
    rcases foldl_better_mem _ h with hnone | hmem
    · cases hnone
    · exact congrArg some (summary_of_mem_candidates hmem)

/-! ## The match of a list of conditions -/

theorem map_find_congr {β : Type} {f : KeyMatch → β} (h : SameFixed conditions conditions')
    (htable : ∀ keys position position', f (ofPartition conditions none keys position) =
      f (ofPartition conditions' none keys position'))
    (hcandidates : ((candidates r model conditions).foldl better none).map f =
      ((candidates r model conditions').foldl better none).map f) :
    (find r model conditions).map (Option.map f) =
      (find r model conditions').map (Option.map f) := by
  rw [find_eq, find_eq]
  cases r.primaryKey model with
  | error fault => rfl
  | ok keys =>
    have hfield := h keys.partition
    dsimp only [bind, Except.bind]
    cases hi : findEquality conditions keys.partition <;>
      cases hj : findEquality conditions' keys.partition <;> simp only [hi, hj] at hfield ⊢
    · exact congrArg Except.ok hcandidates
    · cases hfield
    · cases hfield
    · exact congrArg (Except.ok ∘ some) (htable keys _ _)

/-- With the same required equalities in the same order, the match is the same but for its positions. -/
theorem placeless_find (h : conditions.filter NormalizedCondition.isKeyEquality =
      conditions'.filter NormalizedCondition.isKeyEquality) :
    (find r model conditions).map (Option.map placeless) =
      (find r model conditions').map (Option.map placeless) := by
  have hsame : SameFixed conditions conditions' := sameFixed_of_mem_iff fun c hc => by
    have hmem := congrArg (c ∈ ·) h
    simpa [hc] using hmem
  refine map_find_congr hsame (fun keys => placeless_ofPartition hsame none keys) ?_
  rw [foldl_better_placeless, foldl_better_placeless, candidates_placeless hsame,
    candidates_placeless (fun _ => rfl), h]

/-- In another order the conditions have a match of the table or of an index as before, which fixes as
many key attributes. -/
theorem summary_find (h : conditions.Perm conditions') :
    (find r model conditions).map (Option.map summary) =
      (find r model conditions').map (Option.map summary) := by
  have hsame : SameFixed conditions conditions' := sameFixed_of_mem_iff fun c _ => h.mem_iff
  refine map_find_congr hsame (fun keys position position' => ?_) ?_
  · rw [← summary_placeless, placeless_ofPartition hsame none keys position position',
      summary_placeless]
  · rw [summary_foldl_better, summary_foldl_better, foldl_better_perm]
    rw [candidates_placeless hsame, candidates_placeless (fun _ => rfl)]
    exact (h.filter _).filterMap _

end KeyMatch

namespace Strategy

/-! ## The strategy for a list of conditions -/

theorem ofMemberships_congr (h : conditions.filter NormalizedCondition.isKeyMembership =
      conditions'.filter NormalizedCondition.isKeyMembership) :
    ofMemberships r model conditions = ofMemberships r model conditions' := by
  unfold ofMemberships
  rw [h]

/-- The kind of a strategy without a match, by which memberships exist. -/
theorem kind_ofMemberships (r : Resolver) (model : String) (conditions : List NormalizedCondition) :
    (ofMemberships r model conditions).map kind =
      let memberships := conditions.filter NormalizedCondition.isKeyMembership
      if memberships.any fun c => (r.indexName model c.field).isSome then
        .ok "multi_query"
      else
        (r.primaryKey model).map fun keys =>
          if keys.isSimple ∧ memberships.any (fun c => c.field = keys.partition) then
            "batch_get"
          else
            "scan" := by
  unfold ofMemberships
  dsimp only
  split <;> rename_i hfound
  · obtain ⟨c, hc, hindex⟩ := List.exists_of_findSome?_eq_some hfound
    obtain ⟨index, hname, rfl⟩ := Option.map_eq_some_iff.mp hindex
    rw [if_pos (List.any_eq_true.mpr ⟨c, hc, by rw [hname]; rfl⟩)]
    rfl
  · rw [if_neg fun hany => ?_]
    · cases r.primaryKey model with
      | error fault => rfl
      | ok keys =>
        dsimp only [bind, Except.bind]
        split <;> rename_i hsimple
        · exact congrArg Except.ok (if_pos hsimple).symm
        · exact congrArg Except.ok (if_neg hsimple).symm
    · obtain ⟨c, hc, hindex⟩ := List.any_eq_true.mp hany
      have hnone := List.findSome?_eq_none_iff.mp hfound c hc
      rw [Option.map_eq_none_iff] at hnone
      rw [hnone] at hindex
      cases hindex

theorem kind_ofMemberships_perm (h : conditions.Perm conditions') :
    (ofMemberships r model conditions).map kind = (ofMemberships r model conditions').map kind := by
  have hperm := h.filter NormalizedCondition.isKeyMembership
  rw [kind_ofMemberships, kind_ofMemberships]
  simp only [hperm.any_eq]

/-- With the same required equalities and memberships in the same order, the strategy is the same. -/
theorem ofConditions_congr (h : conditions.filter NormalizedCondition.matters =
      conditions'.filter NormalizedCondition.matters) :
    ofConditions r model conditions = ofConditions r model conditions' := by
  have hplaceless : ∀ cs, ofConditions r model cs =
      ((KeyMatch.find r model cs).map (Option.map KeyMatch.placeless) >>= fun found =>
        found.elim (ofMemberships r model cs) fun m => .ok m.strategy) := by
    intro cs
    unfold ofConditions
    rcases KeyMatch.find r model cs with fault | (_ | m) <;> rfl
  rw [hplaceless, hplaceless,
    KeyMatch.placeless_find (filter_congr_of_imp (fun _ => NormalizedCondition.matters_of_isKeyEquality) h),
    ofMemberships_congr (filter_congr_of_imp (fun _ => NormalizedCondition.matters_of_isKeyMembership) h)]

/-- In another order the conditions have a strategy of the same kind. -/
theorem kind_ofConditions (h : conditions.Perm conditions') :
    (ofConditions r model conditions).map kind = (ofConditions r model conditions').map kind := by
  have hsummary : ∀ cs, (ofConditions r model cs).map kind =
      ((KeyMatch.find r model cs).map (Option.map KeyMatch.summary) >>= fun found =>
        found.elim ((ofMemberships r model cs).map kind) fun summary =>
          .ok (if summary.1 then "secondary_index_query" else "primary_key_query")) := by
    intro cs
    unfold ofConditions
    rcases KeyMatch.find r model cs with fault | (_ | ⟨_ | index, _⟩) <;> rfl
  rw [hsummary, hsummary, KeyMatch.summary_find h, kind_ofMemberships_perm h]

end Strategy

/-! ## Plans -/

theorem mapM_eq_ok_of_forall₂ {α β ε : Type} {f : α → Except ε β} : ∀ {xs : List α} {ys : List β},
    List.Forall₂ (fun x y => f x = .ok y) xs ys → xs.mapM f = .ok ys
  | [], [], .nil => rfl
  | x :: xs, y :: ys, .cons h hrest => by
    rw [List.mapM_cons, h, mapM_eq_ok_of_forall₂ hrest]
    rfl

/-- Conditions in another order are normalized to the same ones in that order. -/
theorem exists_perm_of_normalizeAll {stated stated' : List Condition} (h : stated.Perm stated')
    (hconditions : normalizeAll r model stated = .ok conditions) :
    ∃ conditions', normalizeAll r model stated' = .ok conditions' ∧ conditions.Perm conditions' := by
  obtain ⟨conditions', hforall, hperm⟩ :=
    List.perm_comp_forall₂ h.symm (forall₂_of_mapM_eq_ok hconditions)
  exact ⟨conditions', mapM_eq_ok_of_forall₂ hforall, hperm.symm⟩

namespace Plan

/-- The conditions of a query in another order have a plan too, for the same conditions. -/
theorem exists_ofQuery_perm {c : Config} {q : FindQuery} {p : Plan} (h : ofQuery r c q = .ok p)
    {stated : List Condition} (hperm : q.conditions.Perm stated) :
    ∃ p', ofQuery r c { q with conditions := stated } = .ok p' ∧
      p.conditions.Perm p'.conditions := by
  obtain ⟨a, ha, rfl⟩ := exists_parts h
  obtain ⟨conditions', hconditions', hperm'⟩ := exists_perm_of_normalizeAll hperm ha.conditions
  obtain ⟨found, hfound, -⟩ := KeyMatch.find_serves conditions' ha.keys
  obtain ⟨s, hs⟩ : ∃ s, Strategy.ofConditions r q.model conditions' = .ok s := by
    rw [Strategy.ofConditions, hfound]
    cases found with
    | some m => exact ⟨_, rfl⟩
    | none =>
      obtain ⟨s, hs, -⟩ := Strategy.ofMemberships_rests conditions' ha.keys none
      exact ⟨s, hs⟩
  have hparts : Parts.AreOf ⟨a.table, a.keys, conditions', found, s, a.joins⟩ r c
      { q with conditions := stated } :=
    ⟨ha.model, ha.table, ha.keys, hconditions', hfound, hs, ha.joins⟩
  exact ⟨_, hparts.ofQuery_eq, hperm'⟩

/-- The base strategy of a plan is that of its normalized conditions. For these in another order the kind
of the strategy is the same, and a match with the same score has or lacks a sort position as before; so it
is for the plan of the query with its conditions in another order. Lists with the same required equalities
and memberships in the same order, whatever stands between them, have the same strategy, and the same match
but for its positions. -/
theorem depends_on_conditions (r : Resolver) :
    (∀ c q p, ofQuery r c q = .ok p → ∃ conditions,
      normalizeAll r q.model q.conditions = .ok conditions ∧
        Strategy.ofConditions r q.model conditions = .ok p.directives.baseStrategy ∧
        KeyMatch.find r q.model conditions = .ok p.keyMatch) ∧
    (∀ model conditions conditions', conditions.Perm conditions' →
      (Strategy.ofConditions r model conditions).map Strategy.kind =
        (Strategy.ofConditions r model conditions').map Strategy.kind ∧
      (KeyMatch.find r model conditions).map (Option.map KeyMatch.summary) =
        (KeyMatch.find r model conditions').map (Option.map KeyMatch.summary)) ∧
    (∀ c q p stated, ofQuery r c q = .ok p → q.conditions.Perm stated →
      ∃ p', ofQuery r c { q with conditions := stated } = .ok p' ∧
        p'.directives.baseStrategy.kind = p.directives.baseStrategy.kind ∧
        p'.keyMatch.map KeyMatch.summary = p.keyMatch.map KeyMatch.summary) ∧
    (∀ model conditions conditions',
      conditions.filter NormalizedCondition.matters =
        conditions'.filter NormalizedCondition.matters →
      Strategy.ofConditions r model conditions = Strategy.ofConditions r model conditions' ∧
      (KeyMatch.find r model conditions).map (Option.map KeyMatch.placeless) =
        (KeyMatch.find r model conditions').map (Option.map KeyMatch.placeless)) := by
  refine ⟨fun c q p h => ?_,
    fun model conditions conditions' h => ⟨Strategy.kind_ofConditions h, KeyMatch.summary_find h⟩,
    fun c q p stated h hperm => ?_,
    fun model conditions conditions' h => ⟨Strategy.ofConditions_congr h, KeyMatch.placeless_find
      (filter_congr_of_imp (fun _ => NormalizedCondition.matters_of_isKeyEquality) h)⟩⟩
  · have hfollows := follows_of_ofQuery h
    exact ⟨p.conditions, hfollows.conditions, hfollows.model ▸ hfollows.strategy, hfollows.found⟩
  · obtain ⟨p', h', hconditions⟩ := exists_ofQuery_perm h hperm
    have hfollows := follows_of_ofQuery h
    have hfollows' := follows_of_ofQuery h'
    have hkind : (Strategy.ofConditions r p.model p.conditions).map Strategy.kind =
        (Strategy.ofConditions r p.model p'.conditions).map Strategy.kind :=
      Strategy.kind_ofConditions hconditions
    have hsummary : (KeyMatch.find r q.model p.conditions).map (Option.map KeyMatch.summary) =
        (KeyMatch.find r q.model p'.conditions).map (Option.map KeyMatch.summary) :=
      KeyMatch.summary_find hconditions
    rw [hfollows.strategy, hfollows.model, ← hfollows'.model, hfollows'.strategy] at hkind
    rw [hfollows.found, hfollows'.found] at hsummary
    exact ⟨p', h', (Except.ok.inj hkind).symm, (Except.ok.inj hsummary).symm⟩

/-- The first of two equally good indexes is queried, so the order of the conditions decides which one,
but no more than that. A choice or a range among them decides nothing. -/
theorem depends_on_conditions_users :
    let user : ModelDef :=
      { name := "user", table := "users", primaryKey := { partition := "id" }
        indexes := [⟨"by_team", { partition := "team" }⟩, ⟨"by_city", { partition := "city" }⟩] }
    let r := (Schema.ofModels [user]).resolver
    let team : NormalizedCondition := ⟨"team", .eq, .str "x", .and, false⟩
    let city : NormalizedCondition := ⟨"city", .eq, .str "y", .and, false⟩
    let choice : NormalizedCondition := ⟨"id", .eq, .num (.int 1), .or, false⟩
    let range : NormalizedCondition := ⟨"id", .gt, .num (.int 1), .and, false⟩
    Strategy.ofConditions r "user" [team, city] = .ok (.secondaryIndexQuery "by_team") ∧
      Strategy.ofConditions r "user" [city, team] = .ok (.secondaryIndexQuery "by_city") ∧
      (Strategy.ofConditions r "user" [team, city]).map Strategy.kind =
        (Strategy.ofConditions r "user" [city, team]).map Strategy.kind ∧
      Strategy.ofConditions r "user" [choice, team, range, city] =
        Strategy.ofConditions r "user" [team, city] := by
  intro user r team city choice range
  obtain ⟨-, hperm, -, hcongr⟩ := depends_on_conditions r
  exact ⟨by decide +kernel, by decide +kernel, (hperm "user" _ _ (.swap city team [])).1,
    (hcongr "user" [choice, team, range, city] [team, city] (by decide +kernel)).1⟩

end Plan

end KeyedQuery
