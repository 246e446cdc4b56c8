import KeyedQuery.Proofs.Database.Reads
import KeyedQuery.Proofs.Plan.Sources
import KeyedQuery.Transaction.Basic

/-!
# Reading by key

Conditions that require a value of every key attribute fix a key (`Transaction.FixesKey`), and a row
satisfies them exactly if it has that key. Looking for one row under such conditions finds the row of
the key, or that there is none, and in a calm store it always succeeds: one row fits on one page
(`Database.ensures_findOne_key`).
-/

namespace KeyedQuery

variable {t : Table} {keys : KeySchema} {conditions : List NormalizedCondition} {model : String}
  {key item : Item}

namespace Transaction

/-! ## The key that conditions fix -/

/-- The value that conditions give to a key attribute. -/
def keyValue? (conditions : List NormalizedCondition) (a : String) : Option Value :=
  (conditions.find? fun c => c.field = a ∧ c.isKeyEquality ∧ ¬c.value.isNull).map
    NormalizedCondition.value

theorem keyValues?_eq_some : ∀ {attributes : List String} {values : List (String × Value)},
    keyValues? conditions attributes = some values →
      Fields.names values = attributes ∧ ∀ k v, (k, v) ∈ values → keyValue? conditions k = some v
  | [], values, h => by
    obtain rfl := Option.some.inj h
    simp [Fields.names]
  | a :: attributes, values, h => by
    obtain ⟨c, hc, hrest⟩ := Option.bind_eq_some_iff.mp h
    obtain ⟨more, hmore, hvalues⟩ := Option.bind_eq_some_iff.mp hrest
    obtain rfl := Option.some.inj hvalues
    obtain ⟨hnames, hall⟩ := keyValues?_eq_some hmore
    refine ⟨by rw [← hnames]; rfl, fun k v hkv => ?_⟩
    rcases List.mem_cons.mp hkv with heq | hkv
    · obtain ⟨rfl, rfl⟩ := Prod.mk.inj heq
      rw [keyValue?, hc]
      rfl
    · exact hall k v hkv

/-- The key has, for each key attribute, the value that the conditions give to it. -/
theorem get?_of_keyOfConditions (h : keyOfConditions model keys conditions = .ok key) (a : String) :
    Fields.get? key a = if a ∈ keys.attributes then keyValue? conditions a else none := by
  unfold keyOfConditions at h
  split at h
  · rename_i values hvalues
    obtain rfl := Except.ok.inj h
    obtain ⟨hnames, hall⟩ := keyValues?_eq_some hvalues
    rw [Fields.ofList, Fields.get?_merge_of_agree hall, hnames]
    rfl
  · cases h

theorem ordered_of_keyOfConditions (h : keyOfConditions model keys conditions = .ok key) :
    Fields.Ordered key := by
  unfold keyOfConditions at h
  split at h
  · obtain rfl := Except.ok.inj h
    exact Fields.ordered_ofList _
  · cases h

theorem exists_keyValue? (h : keyOfConditions model keys conditions = .ok key) {a : String}
    (ha : a ∈ keys.attributes) : ∃ v, keyValue? conditions a = some v := by
  unfold keyOfConditions at h
  split at h
  · rename_i values hvalues
    obtain ⟨hnames, hall⟩ := keyValues?_eq_some hvalues
    obtain ⟨⟨k, v⟩, hkv, rfl⟩ := List.mem_map.mp (hnames ▸ ha)
    exact ⟨v, hall k v hkv⟩
  · cases h

theorem isKey_of_keyOfConditions (h : keyOfConditions model t.keys conditions = .ok key) :
    t.IsKey key where
  carries a ha := by
    obtain ⟨v, hv⟩ := exists_keyValue? h ha
    rw [get?_of_keyOfConditions h, if_pos ha, hv]
    rfl
  keyOf_eq := (t.ordered_keyOf key).ext (ordered_of_keyOfConditions h) fun a => by
    rw [t.get?_keyOf, get?_of_keyOfConditions h]
    split <;> rfl

theorem exists_condition_of_keyValue? {a : String} {v : Value}
    (h : keyValue? conditions a = some v) : ∃ c ∈ conditions,
      c.field = a ∧ c.isKeyEquality = true ∧ c.value = v ∧ v.isNull = false := by
  obtain ⟨c, hc, rfl⟩ := Option.map_eq_some_iff.mp h
  have htest := List.find?_some hc
  simp only [Bool.decide_and, Bool.decide_eq_true, Bool.and_eq_true, decide_eq_true_eq] at htest
  exact ⟨c, List.mem_of_find?_eq_some hc, htest.1, htest.2.1, rfl, by simpa using htest.2.2⟩

theorem holds_keyEquality {c : NormalizedCondition} (hc : c.isKeyEquality = true)
    (hnull : c.value.isNull = false) (item : Item) :
    c.holds item = fieldAgrees c.field c.value item := by
  rw [NormalizedCondition.holds, (NormalizedCondition.isKeyEquality_iff.mp hc).2]
  unfold fieldAgrees
  show Operator.equals (Fields.get? item c.field) c.value = _
  cases Fields.get? item c.field with
  | none => exact hnull
  | some v => rfl

/-- A row that satisfies the conditions has the key that they fix. -/
theorem hasKey_of_matchesAll (h : keyOfConditions model keys conditions = .ok key)
    (hall : matchesAll conditions item = true) : item.hasKey key = true := by
  rw [Item.hasKey_iff (ordered_of_keyOfConditions h)]
  intro a v hv
  rw [get?_of_keyOfConditions h] at hv
  split at hv
  · obtain ⟨c, hc, rfl, hkey, rfl, hnull⟩ := exists_condition_of_keyValue? hv
    have hholds := holds_of_matchesAll hall hc (NormalizedCondition.isKeyEquality_iff.mp hkey).1
    rw [holds_keyEquality hkey hnull] at hholds
    exact (Option.any_eq_true _ _).mp hholds
  · cases hv

/-! ## Conditions that fix nothing else -/

/-- The conditions are required equalities with values other than null, one for each key
attribute. -/
structure FixesKey (keys : KeySchema) (conditions : List NormalizedCondition) : Prop where
  equality : ∀ c ∈ conditions, c.isKeyEquality = true ∧ c.value.isNull = false
  nodup : (conditions.map NormalizedCondition.field).Nodup
  mem_iff : ∀ a, a ∈ conditions.map NormalizedCondition.field ↔ a ∈ keys.attributes

namespace FixesKey

theorem isDefinite (h : FixesKey keys conditions) : ∀ c ∈ conditions, c.IsDefinite :=
  fun c hc _ => (h.equality c hc).2

theorem keyValue?_eq (h : FixesKey keys conditions) {c : NormalizedCondition} (hc : c ∈ conditions) :
    keyValue? conditions c.field = some c.value := by
  obtain ⟨hkey, hnull⟩ := h.equality c hc
  have hsome : (conditions.find? fun d => d.field = c.field ∧ d.isKeyEquality ∧
      ¬d.value.isNull).isSome := by
    rw [List.find?_isSome]
    exact ⟨c, hc, by simp [hkey, hnull]⟩
  obtain ⟨d, hd⟩ := Option.isSome_iff_exists.mp hsome
  have hfield : d.field = c.field := by
    have htest := List.find?_some hd
    simp only [Bool.decide_and, Bool.and_eq_true, decide_eq_true_eq] at htest
    exact htest.1
  rw [keyValue?, hd, Option.map_some,
    List.inj_on_of_nodup_map h.nodup (List.mem_of_find?_eq_some hd) hc hfield]

theorem exists_key (h : FixesKey keys conditions) (model : String) :
    ∃ key, keyOfConditions model keys conditions = .ok key := by
  have hvalues : ∀ attributes : List String, (∀ a ∈ attributes, a ∈ keys.attributes) →
      ∃ values, keyValues? conditions attributes = some values := by
    intro attributes
    induction attributes with
    | nil => exact fun _ => ⟨[], rfl⟩
    | cons a attributes ih =>
      intro hmem
      obtain ⟨more, hmore⟩ := ih fun b hb => hmem b (List.mem_cons_of_mem a hb)
      obtain ⟨c, hc, rfl⟩ := List.mem_map.mp ((h.mem_iff a).mpr (hmem a List.mem_cons_self))
      obtain ⟨d, hd, -⟩ := Option.map_eq_some_iff.mp (h.keyValue?_eq hc)
      exact ⟨(c.field, d.value) :: more, by rw [keyValues?, hd, hmore]; rfl⟩
  obtain ⟨values, hall⟩ := hvalues keys.attributes fun _ h => h
  exact ⟨Fields.ofList values, by rw [keyOfConditions, hall]⟩

/-- The rows that satisfy such conditions are those that have the key. -/
theorem matchesAll_eq_hasKey (h : FixesKey keys conditions)
    (hkey : keyOfConditions model keys conditions = .ok key) (item : Item) :
    matchesAll conditions item = item.hasKey key := by
  refine Bool.eq_iff_iff.mpr ⟨hasKey_of_matchesAll hkey, fun hhas => ?_⟩
  have hand : ∀ c ∈ conditions, c.connector = .and := fun c hc =>
    (NormalizedCondition.isKeyEquality_iff.mp (h.equality c hc).1).1
  rw [matchesAll_eq_allHold hand, allHold_iff]
  intro c hc
  obtain ⟨hequality, hnull⟩ := h.equality c hc
  rw [holds_keyEquality hequality hnull, fieldAgrees, Option.any_eq_true]
  refine (Item.hasKey_iff (ordered_of_keyOfConditions hkey)).mp hhas _ _ ?_
  rw [get?_of_keyOfConditions hkey,
    if_pos ((h.mem_iff c.field).mp (List.mem_map_of_mem hc)), h.keyValue?_eq hc]

/-- The best match is one of the table's own key, and it uses all conditions. -/
theorem exists_find (h : FixesKey keys conditions) {r : Resolver}
    (hkeys : r.primaryKey model = .ok keys) : ∃ m, KeyMatch.find r model conditions = .ok (some m) ∧
      m.index = none ∧ m.remaining conditions = [] := by
  have hposition : ∀ a ∈ keys.attributes, ∃ i c, KeyMatch.findEquality conditions a = some i ∧
      conditions[i]? = some c ∧ c.field = a := by
    intro a ha
    obtain ⟨c, hc, rfl⟩ := List.mem_map.mp ((h.mem_iff a).mpr ha)
    obtain ⟨hkey, hnull⟩ := h.equality c hc
    have hsome : (KeyMatch.findEquality conditions c.field).isSome := by
      rw [KeyMatch.findEquality, List.findIdx?_isSome, List.any_eq_true]
      exact ⟨c, hc, by simp [hkey, hnull]⟩
    obtain ⟨i, hi⟩ := Option.isSome_iff_exists.mp hsome
    obtain ⟨hlt, htest, -⟩ := List.findIdx?_eq_some_iff_getElem.mp hi
    simp only [Bool.decide_and, Bool.and_eq_true, decide_eq_true_eq] at htest
    exact ⟨i, conditions[i], hi, List.getElem?_eq_getElem hlt, htest.2.1⟩
  have hunique : ∀ {i j : Nat} {c d : NormalizedCondition}, conditions[i]? = some c →
      conditions[j]? = some d → c.field = d.field → i = j := by
    intro i j c d hi hj hfield
    refine (List.getElem?_inj (i := i) ?_ h.nodup).mp ?_
    · obtain ⟨hlt, -⟩ := List.getElem?_eq_some_iff.mp hi
      simpa using hlt
    · rw [List.getElem?_map, List.getElem?_map, hi, hj, Option.map_some, Option.map_some, hfield]
  obtain ⟨i, c, hi, hci, hc⟩ := hposition keys.partition List.mem_cons_self
  refine ⟨KeyMatch.ofPartition conditions none keys i, ?_, rfl, ?_⟩
  · simp only [KeyMatch.find, hkeys, hi, bind, Except.bind]
  · rw [KeyMatch.remaining, List.eq_nil_iff_forall_not_mem]
    intro d hd
    obtain ⟨j, hj, hkeep⟩ := mem_keepPositions.mp hd
    obtain ⟨hpartition, hsort⟩ := of_decide_eq_true hkeep
    have hfield := (h.mem_iff d.field).mp (List.mem_map_of_mem (List.mem_of_getElem? hj))
    rcases List.mem_cons.mp hfield with heq | hmem
    · exact hpartition (hunique hj hci (heq.trans hc.symm))
    · obtain ⟨a, ha, hsome⟩ : ∃ a, keys.sort = some a ∧ d.field = a := by
        cases hs : keys.sort with
        | none => simp [hs] at hmem
        | some a => exact ⟨a, rfl, by simpa [hs] using hmem⟩
      obtain ⟨k, e, hk, hek, he⟩ := hposition a (by simp [KeySchema.attributes, ha])
      refine hsort ?_
      dsimp only [KeyMatch.ofPartition]
      rw [ha, Option.bind_some, hk, hunique hj hek (hsome.trans he.symm)]

end FixesKey

end Transaction

/-! ## Finding the row of a key -/

namespace Transaction.FixesKey

/-- No condition of a key has to be tested in memory. -/
theorem needsClientFilter_eq (h : FixesKey keys conditions) (hmarked : ∀ c ∈ conditions, c.IsMarked) :
    Plan.needsClientFilter .primaryKeyQuery conditions = false := by
  have hrequired : ∀ c ∈ conditions, c.connector ≠ .or ∧ c.clientOnly = false := by
    intro c hc
    obtain ⟨hand, heq⟩ := NormalizedCondition.isKeyEquality_iff.mp (h.equality c hc).1
    have hclient : c.clientOnly = !c.operator.isNativeFor c.value := hmarked c hc
    exact ⟨by simp [hand], by rw [hclient, heq]; rfl⟩
  simp only [Plan.needsClientFilter, Bool.or_eq_false_iff, List.any_eq_false]
  exact ⟨⟨fun c hc => by simpa using (hrequired c hc).1, fun c hc => by simp [(hrequired c hc).2]⟩, rfl⟩

/-- The rows for which all conditions hold are the row of the key. -/
theorem filter_allHold (h : FixesKey t.keys conditions) (hunique : t.Unique)
    (hkey : keyOfConditions model t.keys conditions = .ok key) {used : List NormalizedCondition}
    (hused : Splits conditions used []) : t.items.filter (allHold used) = (t.find? key).toList := by
  rw [hunique.toList_find? (isKey_of_keyOfConditions hkey)]
  refine List.filter_congr fun item _ => ?_
  rw [← h.matchesAll_eq_hasKey hkey, matchesAll_eq_allHold fun c hc =>
    (NormalizedCondition.isKeyEquality_iff.mp (h.equality c hc).1).1]
  rw [Bool.eq_iff_iff, allHold_iff, allHold_iff]
  simp [hused.mem]

end Transaction.FixesKey

theorem takeAtMost_toList {limit : Option Nat} (hlimit : limit ≠ some 0) (found : Option Item) :
    takeAtMost limit found.toList = found.toList := by
  cases limit with
  | none => rfl
  | some n =>
    cases n with
    | zero => exact absurd rfl hlimit
    | succ n => cases found <;> simp [takeAtMost]

/-- A request that yields a row, or none, shows it on its first page. -/
theorem Table.Yields.page_eq {name : String} {q : PageRequest} {test passes : Item → Bool}
    {found : Option Item} (h : t.Yields name q test passes) (hpasses : ∀ item, passes item = true)
    (hfound : t.items.filter test = found.toList) {pageSize : Option Nat}
    (hpageSize : pageSize ≠ some 0) :
    t.page pageSize { q with limit := some 1 } = .ok ⟨found.toList, found.toList.length, none⟩ := by
  obtain ⟨rows, hanswers, hperm⟩ := h.answers
  obtain rfl : rows = found.toList := by
    rw [hfound] at hperm
    cases found with
    | none => exact List.perm_nil.mp hperm
    | some row => exact List.perm_singleton.mp hperm
  have hcovered : takeAtMost (budget (some 1) pageSize) found.toList = found.toList := by
    refine takeAtMost_toList ?_ found
    exact budget_ne_zero (by simp) hpageSize
  rw [(hanswers.resume (some 1) q.start).page_eq pageSize]
  have hstart : t.behind q.start found.toList = found.toList := by rw [h.start]; rfl
  simp only [hstart, hcovered, h.countOnly]
  rw [List.filter_eq_self.mpr fun item _ => hpasses item]
  simp

theorem Plan.kind_of_keyQuery (p : Plan) {request : PageRequest} (h : p.keyQuery = .ok request) :
    (Request.page { request with limit := some 1 }).kind = .query := by
  unfold keyQuery at h
  split at h
  · obtain rfl := Except.ok.inj h
    rfl
  · cases h

/-- A fetch of one row is done with a page that shows the last row, or none. -/
theorem FetchPolicy.exists_collect_one (policy : FetchPolicy) (q : PageRequest) :
    ∃ rest : Page → Run (List Item),
      policy.collect q (some 1) = policy.page { q with limit := some 1 } >>= rest ∧
      ∀ (found : Option Item) n, rest ⟨found.toList, n, none⟩ = pure found.toList := by
  have hgoOn : ∀ (found : Option Item) (more : Item → Run (List Item)),
      goOn (some 1) found.toList none more = pure found.toList := by
    intro found more
    cases found <;> rfl
  unfold collect
  rw [if_neg (by simp)]
  cases policy.furtherPages with
  | zero => exact ⟨_, rfl, fun found n => hgoOn found _⟩
  | succ further => exact ⟨_, rfl, fun found n => hgoOn found _⟩

/-- A plan for one whole row makes nothing else of a row that has been fetched. -/
theorem Plan.IsPlain.rows_eq {p : Plan} {q : FindQuery} {table : String}
    (h : p.IsPlain q table keys conditions)
    (hlimit : q.limit = some 1) (hclient : p.directives.clientFilter = false)
    (policy : FetchPolicy) : ∃ rest : List Item → Run (List Item),
      p.rows policy = p.fetch policy (some 1) >>= rest ∧
      ∀ found : Option Item, rest found.toList = (do
        Run.count .finds 1
        pure found.toList) := by
  have hfetch : p.directives.fetchLimit = some 1 := by
    rw [h.fetchLimit, hclient, h.limit, hlimit]
    rfl
  refine ⟨_, by rw [Plan.rows, hfetch], fun found => ?_⟩
  simp only [filterRows, hclient, Bool.false_eq_true, if_false, sortRows, h.sort, h.offset, h.limit,
    hlimit, selectRows, h.select, h.joins, cutWindow, List.drop_zero, List.zip_nil_left, joinRows,
    pure_bind]
  rw [takeAtMost_toList (by simp)]

open Transaction in
/-- The plan for conditions that fix a key is a query of the key, after which nothing is left to test. -/
theorem Plan.exists_ofQuery_key {r : Resolver} {q : FindQuery} {table : String} (hplain : q.IsPlain)
    (config : Config) (htable : r.table q.model = .ok table) (hkeys : r.primaryKey q.model = .ok keys)
    (hconditions : normalizeAll r q.model q.conditions = .ok conditions)
    (hfixes : FixesKey keys conditions) :
    ∃ p request, Plan.ofQuery r config q = .ok p ∧ p.IsPlain q table keys conditions ∧
      p.directives.baseStrategy = .primaryKeyQuery ∧ p.directives.clientFilter = false ∧
      p.keyQuery = .ok request ∧
      ∀ t : Table, ∃ used, Splits conditions used [] ∧
        t.Yields table request (allHold used) (filterPasses []) := by
  obtain ⟨p, hp, hof, hrests⟩ := Plan.exists_ofQuery hplain config htable hkeys hconditions
  obtain ⟨m, hfind, hindex, hremaining⟩ := hfixes.exists_find hkeys
  have hmatch : p.keyMatch = some m := by
    have hfound := hrests.found
    rw [hof.model, hof.conditions, hfind] at hfound
    exact (Except.ok.inj hfound).symm
  have hstrategy : p.directives.baseStrategy = .primaryKeyQuery := by
    rw [hrests.strategy_eq m hmatch, KeyMatch.strategy, hindex]
  have hserves := hrests.strategy
  rw [hstrategy] at hserves
  obtain ⟨m', hm', hfits, -⟩ := hserves
  obtain rfl := Option.some.inj (hm'.symm.trans hmatch)
  have hmarked := isMarked_of_normalizeAll hconditions
  have hclient : p.directives.clientFilter = false := by
    rw [hof.clientFilter, hstrategy, hof.conditions, hfixes.needsClientFilter_eq hmarked]
  have hquery : ∀ t : Table, ∃ request used, p.keyQuery = .ok request ∧ Splits conditions used [] ∧
      t.Yields table request (allHold used) (filterPasses []) := by
    intro t
    have hyields := Plan.exists_keyQuery (t := t) hmatch hfits
      (fun name hname => by rw [hindex] at hname; cases hname) (hof.conditions ▸ hmarked)
      (hof.conditions ▸ hfixes.isDefinite)
    rwa [hof.conditions, hof.table, hremaining] at hyields
  obtain ⟨request, _, hrequest, -, -⟩ := hquery ⟨keys, [], []⟩
  refine ⟨p, request, hp, hof, hstrategy, hclient, hrequest, fun t => ?_⟩
  obtain ⟨request', used, hrequest', hsplits, hyields⟩ := hquery t
  obtain rfl := Except.ok.inj (hrequest.symm.trans hrequest')
  exact ⟨used, hsplits, hyields⟩

open Transaction in
/-- Looking for one row under conditions that fix a key sends one query. Its page shows the row of the
key, or none if there is none, and nothing is read behind it. -/
theorem Database.exists_findOne_page {db : Database} {q : FindQuery} {table : String}
    (hplain : q.IsPlain) (htable : db.resolver.table q.model = .ok table)
    (hkeys : db.resolver.primaryKey q.model = .ok keys)
    (hconditions : normalizeAll db.resolver q.model q.conditions = .ok conditions)
    (hfixes : FixesKey keys conditions) (hkey : keyOfConditions model keys conditions = .ok key) :
    ∃ (request : PageRequest) (rest : Page → Run (Option Item)),
      request.table = table ∧ (Request.page request).kind = .query ∧
      db.findOne q = db.request (.page request) >>= rest ∧
      ∀ t : Table, t.keys = keys → t.Unique → ∀ pageSize ≠ some 0, ∃ page,
        t.page pageSize request = .ok page ∧
        rest page = (do
          Run.count .finds 1
          pure (t.find? key)) := by
  have hplain' : ({ q with limit := some 1 } : FindQuery).IsPlain :=
    ⟨hplain.model, hplain.sort, hplain.offset, hplain.select, hplain.joins⟩
  obtain ⟨p, request, hp, hof, hstrategy, hclient, hrequest, hquery⟩ :=
    Plan.exists_ofQuery_key hplain' db.config htable hkeys hconditions hfixes
  obtain ⟨_, -, hfresh⟩ := hquery ⟨keys, [], []⟩
  obtain ⟨afterPage, hcollect, hpage⟩ := db.policy.exists_collect_one request
  obtain ⟨afterFetch, hrows, hfetched⟩ := hof.rows_eq rfl hclient db.policy
  have hretry : db.policy.retry = db.config.retry := by
    unfold Database.policy Config.fetchPolicy
    split <;> rfl
  have hfindOne : db.findOne q =
      db.request (.page { request with limit := some 1 }) >>= fun page =>
        (do
          let rows ← afterPage page >>= afterFetch
          pure rows.head?) := by
    have hfetch : p.fetch db.policy (some 1) = db.policy.collect request (some 1) := by
      unfold Plan.fetch
      rw [hstrategy, hrequest]
      rfl
    have hmany : db.findMany { q with limit := some 1 } = p.rows db.policy := by
      unfold Database.findMany Database.plan
      rw [hp]
      rfl
    rw [Database.findOne, hmany, hrows, hfetch, hcollect, FetchPolicy.page, hretry]
    simp only [bind_assoc]
    rfl
  refine ⟨{ request with limit := some 1 }, _, ?_, ?_, hfindOne,
    fun t ht hunique pageSize hpageSize => ?_⟩
  · exact hfresh.table
  · exact p.kind_of_keyQuery hrequest
  · obtain ⟨used, hsplits, hyields⟩ := hquery t
    subst ht
    refine ⟨_, hyields.page_eq (fun _ => rfl) (hfixes.filter_allHold hunique hkey hsplits) hpageSize, ?_⟩
    rw [hpage, pure_bind, hfetched]
    cases t.find? key <;> rfl

open Transaction in
/-- Conditions that fix a key find its row, or that there is none. -/
theorem Database.ensures_findOne_unique {db : Database} {tables : Fields Table} {table : String}
    {pageSize : Option Nat} {calm : Prop} {q : FindQuery} (htable : db.resolver.table q.model = .ok table)
    (hprimary : db.resolver.primaryKey q.model = .ok t.keys) (ht : Fields.get? tables table = some t)
    (hunique : t.Unique) (hpageSize : pageSize ≠ some 0) (hplain : q.IsPlain)
    (hconditions : normalizeAll db.resolver q.model q.conditions = .ok conditions)
    (hfixes : FixesKey t.keys conditions)
    (hkey : keyOfConditions model t.keys conditions = .ok key) :
    Run.Ensures Memory.receive (Memory.Holds tables pageSize calm) (db.findOne q)
      (fun found => found = t.find? key) (fun _ => ¬calm) := by
  obtain ⟨request, rest, hrequest, -, hfindOne, hpages⟩ :=
    exists_findOne_page hplain htable hprimary hconditions hfixes hkey
  obtain ⟨page, hpage, hrest⟩ := hpages t rfl hunique pageSize hpageSize
  rw [hfindOne]
  refine (Run.Ensures.request db.config.retry (Memory.serves_page (fun hcalm _ => hcalm)
    (hrequest ▸ ht) hpage)).bind fun _ hanswer => ?_
  rw [hanswer, hrest]
  exact .bind .count fun _ _ => .pure rfl

open Transaction in
/-- They do so for a model that lies on its table. -/
theorem Database.ensures_findOne_key {db : Database} {tables : Fields Table}
    {pageSize : Option Nat} {calm : Prop} {q : FindQuery} (hlies : db.LiesOn q.model tables t)
    (hpageSize : pageSize ≠ some 0) (hplain : q.IsPlain)
    (hconditions : normalizeAll db.resolver q.model q.conditions = .ok conditions)
    (hfixes : FixesKey t.keys conditions)
    (hkey : keyOfConditions model t.keys conditions = .ok key) :
    Run.Ensures Memory.receive (Memory.Holds tables pageSize calm) (db.findOne q)
      (fun found => found = t.find? key) (fun _ => ¬calm) := by
  obtain ⟨table, htable, ht⟩ := hlies.exists_table
  exact ensures_findOne_unique htable hlies.primaryKey ht hlies.wellKeyed.unique hpageSize hplain
    hconditions hfixes hkey

/-! ## Rows of a key under further conditions -/

namespace Transaction

/-- The equality that gives a key attribute its value is the first one on it. -/
theorem exists_findEquality_of_keyValue? {a : String} {v : Value}
    (h : keyValue? conditions a = some v) : ∃ i c, KeyMatch.findEquality conditions a = some i ∧
      conditions[i]? = some c ∧ c.field = a ∧ c.value = v := by
  obtain ⟨c, hc, rfl⟩ := Option.map_eq_some_iff.mp h
  obtain ⟨hc, i, hi, rfl, hbefore⟩ := List.find?_eq_some_iff_getElem.mp hc
  obtain ⟨hfield, hequality, hvalue⟩ := of_decide_eq_true hc
  refine ⟨i, _, ?_, List.getElem?_eq_getElem hi, hfield, rfl⟩
  refine List.findIdx?_eq_some_iff_getElem.mpr ⟨hi, ?_, fun j hj => ?_⟩
  · exact decide_eq_true ⟨hequality, hfield, hvalue⟩
  · have hother := hbefore j hj
    simp only [Bool.not_eq_true', decide_eq_false_iff_not] at hother
    simpa only [decide_eq_true_eq] using fun h => hother ⟨h.2.1, h.1, h.2.2⟩

/-- Conditions that fix a key have it for their match, whatever else they say. -/
theorem exists_find_of_keyOfConditions {r : Resolver} (hkeys : r.primaryKey model = .ok keys)
    (hkey : keyOfConditions model keys conditions = .ok key) :
    ∃ m, KeyMatch.find r model conditions = .ok (some m) ∧ m.index = none ∧
      ∀ item, m.admits conditions item = true → item.hasKey key = true := by
  have hposition : ∀ {a : String} {v : Value}, Fields.get? key a = some v → a ∈ keys.attributes ∧
      ∃ i c, KeyMatch.findEquality conditions a = some i ∧ conditions[i]? = some c ∧ c.field = a ∧
        c.value = v := by
    intro a v hv
    rw [get?_of_keyOfConditions hkey] at hv
    split at hv
    · exact ⟨‹_›, exists_findEquality_of_keyValue? hv⟩
    · cases hv
  obtain ⟨v, hv⟩ := exists_keyValue? hkey (List.mem_cons_self (a := keys.partition))
  obtain ⟨i, -, hi, -⟩ := exists_findEquality_of_keyValue? hv
  refine ⟨KeyMatch.ofPartition conditions none keys i, ?_, rfl, fun item hadmits => ?_⟩
  · simp only [KeyMatch.find, hkeys, hi, bind, Except.bind]
  · rw [Item.hasKey_iff (ordered_of_keyOfConditions hkey)]
    intro a w hw
    obtain ⟨ha, j, c, hj, hc, rfl, rfl⟩ := hposition hw
    refine (Option.any_eq_true _ _).mp (List.all_eq_true.mp hadmits c ?_)
    refine List.mem_filterMap.mpr ⟨j, ?_, hc⟩
    rcases List.mem_cons.mp ha with heq | hsort
    · rw [heq, hi] at hj
      exact List.mem_cons.mpr (.inl (Option.some.inj hj).symm)
    · refine List.mem_cons_of_mem _ (Option.mem_toList.mpr ?_)
      rw [KeyMatch.ofPartition, Option.mem_toList.mp hsort]
      exact hj

end Transaction

/-- The first row of a query shows what the query retains as it is in a row that was fetched. -/
theorem Database.ensures_findOne_of_fetch {db : Database} {tables : Fields Table}
    {pageSize : Option Nat} {q : FindQuery} {names : List String} {P : Item → Prop}
    (hretains : q.Retains db.resolver names)
    (hfetch : ∀ p, Plan.ofQuery db.resolver db.config { q with limit := some 1 } = .ok p →
      Run.Ensures Memory.receive (Memory.Holds tables pageSize False)
        (p.fetch db.policy p.directives.fetchLimit) (fun rows => ∀ row ∈ rows, P row) fun _ => True) :
    Run.Ensures Memory.receive (Memory.Holds tables pageSize False) (db.findOne q)
      (fun found => ∀ row, found = some row → row.Shows P names) (fun _ => True) := by
  unfold findOne findMany plan
  refine Run.Ensures.bind (Q := fun rows => ∀ row ∈ rows, row.Shows P names) ?_
    fun rows hrows => .pure fun row hrow => hrows row (List.mem_of_mem_head? hrow)
  refine .ofExcept_bind (fun p hp => ?_) fun _ _ => trivial
  have hplan := Plan.retains_of_ofQuery (q := { q with limit := some 1 }) hp
    ⟨hretains.selected, hretains.label_notMem⟩
  exact Plan.ensures_rows_shows hplan (hfetch p hp)

open Transaction in
/-- A row that is found under conditions that fix a key shows the attributes that the query retains as they
are in a row of the key, whatever tables there are and whatever else the conditions say. -/
theorem Database.ensures_findOne_hasKey {db : Database} {tables : Fields Table}
    {pageSize : Option Nat} {q : FindQuery} {names : List String}
    (hkeys : db.resolver.primaryKey q.model = .ok keys)
    (hconditions : normalizeAll db.resolver q.model q.conditions = .ok conditions)
    (hkey : keyOfConditions q.model keys conditions = .ok key) (hretains : q.Retains db.resolver names) :
    Run.Ensures Memory.receive (Memory.Holds tables pageSize False) (db.findOne q)
      (fun found => ∀ row, found = some row → row.Shows (fun item => item.hasKey key = true) names)
      (fun _ => True) := by
  refine ensures_findOne_of_fetch hretains fun p hp => ?_
  have hfollows := Plan.follows_of_ofQuery hp
  obtain rfl : conditions = p.conditions :=
    Except.ok.inj (hconditions.symm.trans hfollows.conditions)
  obtain ⟨m, hfind, hindex, hadmits⟩ := exists_find_of_keyOfConditions hkeys hkey
  have hmatch : p.keyMatch = some m := Except.ok.inj (hfollows.found.symm.trans hfind)
  obtain ⟨text, filter, a, passes, hquery, htext, -, -⟩ := Plan.keyQuery_eq hmatch
    (KeyMatch.serves_of_find hfind).1 (isMarked_of_normalizeAll hconditions)
  have hfetch : ∀ limit, p.fetch db.policy limit =
      Run.ofExcept p.keyQuery >>= fun request => db.policy.collect request limit := by
    intro limit
    unfold Plan.fetch
    rw [hfollows.strategy_eq m hmatch, KeyMatch.strategy, hindex]
  rw [hfetch, hquery]
  refine .ofExcept_bind (fun request hrequest => ?_) fun _ _ => trivial
  have haccess : request.access = .query m.index text (p.directives.serverSort ≠ some .desc) := by
    rw [← Except.ok.inj hrequest]
  have hattributes : request.attributes = a := by rw [← Except.ok.inj hrequest]
  rw [← hattributes] at htext
  exact (db.policy.ensures_collect_forall _ fun _ _ => Memory.serves_query_holds haccess htext).imp
    (fun rows hrows row hrow => hadmits row (hrows row hrow)) fun _ h => h

end KeyedQuery
