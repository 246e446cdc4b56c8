import KeyedQuery.Proofs.Database.Reads
import KeyedQuery.Proofs.Plan.Requests

/-!
# The conditions of a key match

A key match points to conditions: to an equality on the partition attribute of its key, and, if it has
a sort position, to one on the sort attribute (`KeyMatch.Fixes`). The text of its key condition reads
as these equalities, and what it leaves over are the conditions at all other positions, in order. The
equality on a sort attribute is never one with null, nor is that on the partition attribute of a
table. That on the partition attribute of an index is looked for in another way, which does not pass
null over; then the store is asked to compare a key attribute with null (`KeyMatch.not_find_fixes`).
-/

namespace KeyedQuery

open Placeholders

variable {r : Resolver} {model : String} {conditions : List NormalizedCondition} {m : KeyMatch}

/-! ## Keys of indexes -/

/-- The key that is shown of an index starts with the attribute by which the index is found. -/
def Resolver.IndexesAgree (r : Resolver) (model : String) : Prop :=
  ∀ field index keys, r.indexName model field = some index →
    r.indexKeys model index = some keys → keys.partition = field

theorem Resolver.IndexesAgree.concealing (h : r.IndexesAgree model) (models indexes : List String) :
    (r.concealing models indexes).IndexesAgree model := by
  intro field index keys hindex hkeys
  by_cases hhidden : index ∈ indexes
  · simp [Resolver.concealing, hhidden] at hkeys
  · exact h field index keys hindex (by simpa [Resolver.concealing, hhidden] using hkeys)

/-- Of indexes with different names, the one found by its partition attribute is the one found again
by its name. -/
theorem Schema.indexesAgree {s : Schema}
    (hindexes : ∀ d, s.model? model = some d → (d.indexes.map IndexDef.name).Nodup) :
    s.resolver.IndexesAgree model := by
  intro field name keys hname hkeys
  obtain ⟨d, hd, hname⟩ := Option.bind_eq_some_iff.mp hname
  obtain ⟨i, hi, hname⟩ := Option.bind_eq_some_iff.mp hname
  obtain rfl := Option.some.inj hname
  obtain ⟨d', hd', hkeys⟩ := Option.bind_eq_some_iff.mp hkeys
  obtain rfl := Option.some.inj (hd.symm.trans hd')
  obtain ⟨j, hj, hkeys⟩ := Option.bind_eq_some_iff.mp hkeys
  obtain rfl := Option.some.inj hkeys
  have hsame : j.name = i.name := by simpa using List.find?_some hj
  obtain rfl := List.inj_on_of_nodup_map (hindexes d hd) (List.mem_of_find?_eq_some hj)
    (List.mem_of_find?_eq_some hi) hsame
  simpa using List.find?_some hi

/-! ## Positions -/

/-- The elements at the positions that satisfy a test, in order. -/
theorem keepPositions_eq {α : Type} (keep : Nat → Bool) (xs : List α) :
    keepPositions keep xs = ((List.range xs.length).filter keep).filterMap (xs[·]?) := by
  have hmap : (xs.mapIdx fun i x => if keep i then some x else none) =
      (List.range xs.length).map fun i => if keep i then xs[i]? else none :=
    List.ext_getElem (by simp) fun i hi _ => by
      simp [List.getElem?_eq_getElem (show i < xs.length by simpa using hi)]
  rw [keepPositions, hmap, List.filterMap_map, List.filterMap_filter]
  rfl

namespace KeyMatch

/-- The key of a match is that of the table or of an index, and its positions are those of equalities on
the attributes of that key. Only that on the partition attribute of an index may be one with null. -/
structure Fixes (r : Resolver) (model : String) (conditions : List NormalizedCondition)
    (m : KeyMatch) : Prop where
  keys : match m.index with
    | none => r.primaryKey model = .ok m.keys
    | some index => r.indexName model m.keys.partition = some index ∧
      (r.indexKeys model index = some m.keys ∨
        r.indexKeys model index = none ∧ m.keys = { partition := m.keys.partition })
  partition : ∃ c, conditions[m.partition]? = some c ∧ c.isKeyEquality = true ∧
    c.field = m.keys.partition ∧ (m.index = none → c.value.isNull = false)
  sort : ∀ i, m.sort = some i → ∃ c, conditions[i]? = some c ∧ c.isKeyEquality = true ∧
    m.keys.sort = some c.field ∧ c.value.isNull = false

theorem exists_of_findEquality {field : String} {i : Nat}
    (h : findEquality conditions field = some i) : ∃ c, conditions[i]? = some c ∧
      c.isKeyEquality = true ∧ c.field = field ∧ c.value.isNull = false := by
  obtain ⟨hlt, hc, -⟩ := List.findIdx?_eq_some_iff_getElem.mp h
  simp only [Bool.decide_and, Bool.decide_eq_true, Bool.and_eq_true, decide_eq_true_eq,
    Bool.not_eq_true] at hc
  exact ⟨conditions[i], List.getElem?_eq_getElem hlt, hc⟩

theorem sort_ofPartition {index : Option String} {keys : KeySchema} {position i : Nat}
    (h : (ofPartition conditions index keys position).sort = some i) :
    ∃ c, conditions[i]? = some c ∧ c.isKeyEquality = true ∧ keys.sort = some c.field ∧
      c.value.isNull = false := by
  obtain ⟨field, hfield, hi⟩ := Option.bind_eq_some_iff.mp h
  obtain ⟨c, hc, hkey, rfl, hnull⟩ := exists_of_findEquality hi
  exact ⟨c, hc, hkey, hfield, hnull⟩

theorem fixes_ofIndex? (hr : r.IndexesAgree model) {position : Nat} {c : NormalizedCondition}
    (hc : conditions[position]? = some c) (h : ofIndex? r model conditions position c = some m) :
    m.Fixes r model conditions := by
  unfold ofIndex? at h
  split at h
  · rename_i hkey
    obtain ⟨index, hindex, rfl⟩ := Option.map_eq_some_iff.mp h
    cases hkeys : r.indexKeys model index with
    | none =>
      exact ⟨⟨hindex, .inr ⟨hkeys, rfl⟩⟩, ⟨c, hc, hkey, rfl, fun hnone => by cases hnone⟩,
        fun i hi => sort_ofPartition hi⟩
    | some keys =>
      have hfield : keys.partition = c.field := hr c.field index keys hindex hkeys
      exact ⟨⟨hfield ▸ hindex, .inl hkeys⟩,
        ⟨c, hc, hkey, hfield.symm, fun hnone => by cases hnone⟩, fun i hi => sort_ofPartition hi⟩
  · cases h

/-- A match that is found fixes its key. -/
theorem fixes_of_find (hr : r.IndexesAgree model) (h : find r model conditions = .ok (some m)) :
    m.Fixes r model conditions := by
  rcases of_find h with ⟨keys, position, hkeys, hposition, rfl⟩ | ⟨position, c, hc, hindex⟩
  · obtain ⟨c, hc, hkey, hfield, hnull⟩ := exists_of_findEquality hposition
    exact ⟨hkeys, ⟨c, hc, hkey, hfield, fun _ => hnull⟩, fun i hi => sort_ofPartition hi⟩
  · exact fixes_ofIndex? hr hc hindex

theorem Fixes.fits (h : m.Fixes r model conditions) : m.Fits conditions where
  partition := by
    obtain ⟨c, hc, hkey, -⟩ := h.partition
    exact ⟨c, hc, hkey⟩
  sort i hi := by
    obtain ⟨c, hc, hkey, -⟩ := h.sort i hi
    exact ⟨c, hc, hkey⟩

/-! ## Texts -/

/-- The key condition is for the match's index, its text reads as the equalities that the match uses, and
it leaves the other conditions over. -/
theorem Fits.writes_keyCondition? (h : m.Fits conditions) :
    Writes (m.keyCondition? conditions) fun tokens key => ∃ condition first others,
      key = some condition ∧ condition.index = m.index ∧
      condition.remaining = m.remaining conditions ∧
      (m.used conditions).map NormalizedCondition.comparison = first :: others ∧
      Predicate.parse tokens.attributes condition.expression = .ok (first.conjunction others) := by
  refine h.writes_comparisons.bind fun text => Writes.pure fun tokens htext => ?_
  obtain ⟨expression, first, others, rfl, hused, hparse⟩ := htext
  exact ⟨_, first, others, rfl, rfl, rfl, hused, hparse⟩

/-- A match uses an equality with null only as that on the partition attribute of an index. -/
theorem Fixes.isNull_iff (h : m.Fixes r model conditions) :
    (∃ c ∈ m.used conditions, c.value.isNull = true) ↔
      ∃ c, conditions[m.partition]? = some c ∧ c.value.isNull = true := by
  constructor
  · rintro ⟨c, hc, hnull⟩
    obtain ⟨i, hi, hci⟩ := List.mem_filterMap.mp hc
    rcases List.mem_cons.mp hi with rfl | hi
    · exact ⟨c, hci, hnull⟩
    · obtain ⟨d, hd, -, -, hvalue⟩ := h.sort i (Option.mem_toList.mp hi)
      obtain rfl := Option.some.inj (hd.symm.trans hci)
      rw [hvalue] at hnull
      cases hnull
  · rintro ⟨c, hc, hnull⟩
    exact ⟨c, List.mem_filterMap.mpr ⟨m.partition, List.mem_cons_self, hc⟩, hnull⟩

/-- A match that uses an equality with null is of the index of the equality's field. -/
theorem Fixes.indexed_of_isNull (h : m.Fixes r model conditions) {c : NormalizedCondition}
    (hc : conditions[m.partition]? = some c) (hnull : c.value.isNull = true) :
    c.isKeyEquality = true ∧ (r.indexName model c.field).isSome = true := by
  obtain ⟨d, hd, hkey, hfield, hvalue⟩ := h.partition
  obtain rfl := Option.some.inj (hd.symm.trans hc)
  refine ⟨hkey, ?_⟩
  have hkeys := h.keys
  cases hindex : m.index with
  | none =>
    rw [hvalue hindex] at hnull
    cases hnull
  | some index =>
    rw [hindex] at hkeys
    rw [hfield, hkeys.1]
    rfl

/-! ## Matches that are found -/

/-- What a key match of a model points to, what its key condition reads as, and what it leaves over, if
the indexes of the model have different names. The store is asked to compare a key attribute with null
exactly if the equality on the partition attribute is one with null; this is then the attribute of an
index. So it is not if no required equality with null is on an indexed attribute. -/
theorem find_fixes {s : Schema}
    (hindexes : ∀ d, s.model? model = some d → (d.indexes.map IndexDef.name).Nodup)
    (hr : r = s.resolver ∨ ∃ models indexes, r = s.resolver.concealing models indexes)
    (h : find r model conditions = .ok (some m)) :
    m.Fixes r model conditions ∧
      m.remaining conditions = ((List.range conditions.length).filter fun i =>
        i ≠ m.partition ∧ some i ≠ m.sort).filterMap (conditions[·]?) ∧
      Writes (m.keyCondition? conditions) (fun tokens key => ∃ condition first others,
        key = some condition ∧ condition.index = m.index ∧
        condition.remaining = m.remaining conditions ∧
        (m.used conditions).map NormalizedCondition.comparison = first :: others ∧
        Predicate.parse tokens.attributes condition.expression = .ok (first.conjunction others)) ∧
      ((∃ c ∈ m.used conditions, c.value.isNull = true) ↔
        ∃ c, conditions[m.partition]? = some c ∧ c.value.isNull = true) ∧
      ((∀ c ∈ conditions, c.isKeyEquality = true → c.value.isNull = true →
          r.indexName model c.field = none) →
        ∀ c ∈ m.used conditions, c.value.isNull = false) := by
  have hagree : r.IndexesAgree model := by
    rcases hr with rfl | ⟨models, indexes, rfl⟩
    · exact s.indexesAgree hindexes
    · exact (s.indexesAgree hindexes).concealing models indexes
  have hfixes := fixes_of_find hagree h
  refine ⟨hfixes, keepPositions_eq _ _, hfixes.fits.writes_keyCondition?, hfixes.isNull_iff,
    fun hnone c hc => ?_⟩
  by_contra hnull
  obtain ⟨d, hd, hnull⟩ := hfixes.isNull_iff.mp ⟨c, hc, by simpa using hnull⟩
  obtain ⟨hkey, hindexed⟩ := hfixes.indexed_of_isNull hd hnull
  rw [hnone d (List.mem_of_getElem? hd) hkey hnull] at hindexed
  cases hindexed

/-- Of the conditions on a user, those on the team and the rank fix the key of an index. -/
theorem find_fixes_users :
    let user : ModelDef :=
      { name := "user", table := "users", primaryKey := { partition := "id" }
        indexes := [⟨"by_team", { partition := "team", sort := some "rank" }⟩] }
    let s : Schema := .ofModels [user]
    let rank : NormalizedCondition := ⟨"rank", .eq, .num (.int 3), .and, false⟩
    let named : NormalizedCondition := ⟨"name", .eq, .null, .and, false⟩
    let team : NormalizedCondition := ⟨"team", .eq, .str "x", .and, false⟩
    let m : KeyMatch := ⟨some "by_team", { partition := "team", sort := some "rank" }, 2, some 0, 2⟩
    find s.resolver "user" [rank, named, team] = .ok (some m) ∧
      m.Fixes s.resolver "user" [rank, named, team] ∧
      m.remaining [rank, named, team] = [named] ∧
      ∀ c ∈ m.used [rank, named, team], c.value.isNull = false := by
  intro user s rank named team m
  have hindexes : ∀ d, s.model? "user" = some d → (d.indexes.map IndexDef.name).Nodup := by
    intro d hd
    obtain rfl := Option.some.inj ((show s.model? "user" = some user by decide +kernel).symm.trans hd)
    decide
  have hfind : find s.resolver "user" [rank, named, team] = .ok (some m) := by decide +kernel
  obtain ⟨hfixes, hremaining, -, -, hnull⟩ := find_fixes hindexes (.inl rfl) hfind
  exact ⟨hfind, hfixes, hremaining, hnull (by decide +kernel)⟩

/-- The equality of an indexed attribute with null fixes the key of the index, and the store is asked
whether the attribute equals null. That of the key of the table with null fixes nothing. -/
theorem not_find_fixes :
    let user : ModelDef :=
      { name := "user", table := "users", primaryKey := { partition := "id" }
        indexes := [⟨"by_team", { partition := "team" }⟩] }
    let s : Schema := .ofModels [user]
    let team : NormalizedCondition := ⟨"team", .eq, .null, .and, false⟩
    let id : NormalizedCondition := ⟨"id", .eq, .null, .and, false⟩
    let m : KeyMatch := ⟨some "by_team", { partition := "team" }, 0, none, 1⟩
    find s.resolver "user" [team] = .ok (some m) ∧
      (∃ c ∈ m.used [team], c.value.isNull = true) ∧
      ((m.expression? [team]).run {}).1 = some "#f0 = :v0" ∧
      ((m.expression? [team]).run {}).2.attributes = ⟨[("#f0", "team")], [(":v0", .null)]⟩ ∧
      find s.resolver "user" [id] = .ok none := by
  decide +kernel

end KeyMatch

end KeyedQuery
