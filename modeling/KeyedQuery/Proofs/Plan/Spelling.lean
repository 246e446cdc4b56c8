import KeyedQuery.Proofs.Database.Counts
import KeyedQuery.Proofs.Database.Reads
import KeyedQuery.Proofs.Expression.Usage

/-!
# What the requests of a plan spell out

Every request for a page that a plan sends has texts and tables that go together
(`Attributes.Spells`), and what its texts test comes from the plan: from a required condition that the
store can evaluate, from the elements of a required list, or from a join (`Plan.Tests`).
-/

namespace KeyedQuery

open Placeholders

variable {p q : Placeholders} {conditions : List NormalizedCondition}

/-- The texts of a request: the key condition, and the filter if there is one. -/
def PageRequest.texts (request : PageRequest) : List String :=
  match request.access with
  | .scan => request.filter.toList
  | .query _ keyCondition _ => keyCondition :: request.filter.toList

/-! ## Filters -/

/-- The test that a condition is written as. -/
def NormalizedCondition.test (c : NormalizedCondition) : Test :=
  ⟨c.field, c.operator.operands c.value⟩

/-- The tests of the filter of some conditions. There are none if something has to be tested in
memory. -/
def filterTests (conditions : List NormalizedCondition) : List Test :=
  if conditions.any fun c => c.clientOnly ∨ c.connector = .or then []
  else conditions.map NormalizedCondition.test

theorem renders_fragments? : ∀ (conditions : List NormalizedCondition),
    (∀ c ∈ conditions, c.operator.isNativeFor c.value = true) → ∀ p,
      ∃ texts tss, (fragments? conditions p).1 = some texts ∧ List.Forall₂ Token.Reads texts tss ∧
        Sends p (fragments? conditions p).2 tss.flatten
          ((conditions.map NormalizedCondition.test).map Test.field)
          ((conditions.map NormalizedCondition.test).flatMap Test.operands)
  | [], _, p => ⟨[], [], rfl, .nil, Sends.refl p⟩
  | c :: conditions, h, p => by
    obtain ⟨text, htext, ts, hreads, hsends⟩ := Operator.renders_fragment?
      (h c List.mem_cons_self) (reads_name c.field p) (sends_name c.field p)
    obtain ⟨texts, tss, htexts, hreads', hsends'⟩ := renders_fragments? conditions
      (fun d hd => h d (List.mem_cons_of_mem c hd))
      (c.operator.fragment? (name c.field p).1 c.value (name c.field p).2).2
    rw [fragments?, bind_apply, bind_apply, htext]
    refine ⟨text :: texts, ts :: tss, ?_, .cons hreads hreads', hsends.append hsends'⟩
    exact congrArg (Option.map (text :: ·)) htexts

theorem isNativeFor_of_isMarked {c : NormalizedCondition} (hmarked : c.IsMarked)
    (hnative : c.clientOnly = false) : c.operator.isNativeFor c.value = true := by
  simpa [NormalizedCondition.IsMarked, hnative] using hmarked

/-- The filter is written with the tests of its conditions. -/
theorem renders_filter (hmarked : ∀ c ∈ conditions, c.IsMarked) (p : Placeholders) :
    ∃ tss, List.Forall₂ Token.Reads (filterExpression? conditions p).1.toList tss ∧
      Sends p (filterExpression? conditions p).2 tss.flatten
        ((filterTests conditions).map Test.field) ((filterTests conditions).flatMap Test.operands) := by
  unfold filterExpression? filterTests
  by_cases hany : conditions.any fun c => c.clientOnly ∨ c.connector = .or
  · rw [if_pos (Or.inr hany), if_pos hany]
    exact ⟨[], .nil, Sends.refl p⟩
  · by_cases hnil : conditions = []
    · subst hnil
      exact ⟨[], .nil, Sends.refl p⟩
    · have hnative : ∀ c ∈ conditions, c.operator.isNativeFor c.value = true := by
        intro c hc
        refine isNativeFor_of_isMarked (hmarked c hc) ?_
        simp only [List.any_eq_true, not_exists, not_and] at hany
        have hc' := hany c hc
        simp at hc'
        exact hc'.1
      have hand : Token.Closes " AND " [.word "AND"] := Token.closes_of_stepAll rfl
      obtain ⟨texts, tss, htexts, hreads, hsends⟩ := renders_fragments? conditions hnative p
      rw [if_neg (not_or.mpr ⟨by simpa using hnil, hany⟩), if_neg hany, bind_apply, htexts]
      refine ⟨[[Token.word "AND"].intercalate tss],
        .cons (Token.Reads.intercalate hand (by decide) (by decide) hreads) .nil, ?_⟩
      rw [List.flatten_singleton]
      exact hsends.intercalate rfl rfl (by simp [Token.IsPlain, Token.keywords])

/-! ## Key conditions -/

theorem renders_partitionCondition (field : String) (v : Value) (p : Placeholders) :
    Renders (partitionCondition field v) p p [field] [v] := by
  have hsign : Token.Closes " = " [.comparator .eq] := Token.closes_of_stepAll rfl
  have hreads := ((reads_name field p).append_closes hsign (by decide) (by decide)).append
    (Token.reads_valueToken (name field p).2.values.length)
  refine ⟨_, hreads, ?_⟩
  exact ((sends_name field p).append (sends_value v _)).congr rfl rfl (by simp [Token.IsPlain])

theorem renders_memberFilter (field : String) (vs : List Value) (p : Placeholders) :
    Renders (memberFilter field vs) p p [field] vs :=
  Operator.renders_membership (reads_name field p) (sends_name field p) vs

theorem NormalizedCondition.test_of_isKeyEquality {c : NormalizedCondition}
    (h : c.isKeyEquality = true) : c.test = ⟨c.field, [c.value]⟩ := by
  rw [test, (isKeyEquality_iff.mp h).2]
  rfl

/-- The text of a match is written with the tests of the conditions that it uses. -/
theorem KeyMatch.Fits.renders {m : KeyMatch} (h : m.Fits conditions) (p : Placeholders) :
    RendersSome (m.expression? conditions) p p
      (((m.used conditions).map NormalizedCondition.test).map Test.field)
      (((m.used conditions).map NormalizedCondition.test).flatMap Test.operands) := by
  obtain ⟨c, hc, hkey⟩ := h.partition
  have hfirst := renders_partitionCondition c.field c.value p
  unfold expression?
  cases hsort : m.sort with
  | none =>
    have hused : m.used conditions = [c] := by simp [used, hsort, hc]
    rw [hc, hused, List.map_singleton, c.test_of_isKeyEquality hkey]
    exact hfirst.some
  | some i =>
    obtain ⟨d, hd, hkey'⟩ := h.sort i hsort
    have hused : m.used conditions = [c, d] := by simp [used, hsort, hc, hd]
    obtain ⟨ts, hreads, hsends⟩ := hfirst
    obtain ⟨us, hreads', hsends'⟩ := renders_partitionCondition d.field d.value
      (partitionCondition c.field c.value p).2
    have hand : Token.Closes " AND " [.word "AND"] := Token.closes_of_stepAll rfl
    have hword : Sends (partitionCondition c.field c.value p).2
        (partitionCondition c.field c.value p).2 [.word "AND"] [] [] :=
      Sends.of_plain _ _ rfl rfl (by simp [Token.IsPlain, Token.keywords])
    rw [hc, hused, Option.map_some, hd, List.map_cons, List.map_singleton,
      c.test_of_isKeyEquality hkey, d.test_of_isKeyEquality hkey']
    exact ⟨_, rfl, _, (hreads.append_closes hand (by decide) (by decide)).append hreads',
      (hsends.append hword).append hsends'⟩

/-! ## Requests -/

theorem FilterMeans.parses {a : Attributes} {filter : Option String} {passes : Item → Bool}
    (h : FilterMeans a filter passes) :
    ∀ text ∈ filter.toList, ∃ predicate, Predicate.parse a text = .ok predicate := by
  cases filter with
  | none => simp
  | some text =>
    obtain ⟨predicate, hparse, -⟩ := h
    simpa using ⟨predicate, hparse⟩

namespace Plan

variable {p : Plan}

theorem spells_scanRequest (hmarked : ∀ c ∈ p.conditions, c.IsMarked) :
    p.scanRequest.attributes.Spells p.scanRequest.texts (filterTests p.conditions) := by
  obtain ⟨tss, hreads, hsends⟩ := renders_filter hmarked {}
  obtain ⟨passes, hmeans, -⟩ := (writes_filter_of_marked hmarked).run
  exact hsends.spells hreads hmeans.parses

theorem spells_valueQuery (index field : String) {remaining : List NormalizedCondition}
    (hmarked : ∀ c ∈ remaining, c.IsMarked) (v : Value) :
    (p.valueQuery index field remaining v).attributes.Spells
      (p.valueQuery index field remaining v).texts (⟨field, [v]⟩ :: filterTests remaining) := by
  obtain ⟨ts, hread, hsends⟩ := renders_partitionCondition field v {}
  obtain ⟨tss, hreads, hsends'⟩ := renders_filter hmarked (partitionCondition field v {}).2
  have hwrites : Writes (do
      let keyCondition ← partitionCondition field v
      let filter ← filterExpression? remaining
      pure (keyCondition, filter)) fun r texts =>
        TextMeans r.attributes texts.1 (fieldAgrees field v) ∧
          ∃ passes, FilterMeans r.attributes texts.2 passes := by
    refine (writes_partitionCondition field v).bind fun text => ?_
    refine (writes_filter_of_marked hmarked).bind fun filter => Writes.pure fun r hfilter htext => ?_
    exact ⟨textMeans_equality htext, hfilter.imp fun _ h => h.1⟩
  obtain ⟨⟨predicate, hparse, -⟩, passes, hmeans⟩ := hwrites.run
  have hall : Sends {} _ (ts :: tss).flatten ((⟨field, [v]⟩ :: filterTests remaining).map Test.field)
    ((⟨field, [v]⟩ :: filterTests remaining).flatMap Test.operands) := hsends.append hsends'
  exact hall.spells (.cons hread hreads) (List.forall_mem_cons.mpr ⟨⟨predicate, hparse⟩, hmeans.parses⟩)

/-- The query of a key match that fits tests the conditions that the match uses, and in its filter the
others. -/
theorem spells_keyQuery {m : KeyMatch} (hmatch : p.keyMatch = some m) (hfits : m.Fits p.conditions)
    (hmarked : ∀ c ∈ p.conditions, c.IsMarked) {request : PageRequest}
    (hrequest : p.keyQuery = .ok request) :
    request.attributes.Spells request.texts
      ((m.used p.conditions).map NormalizedCondition.test ++
        filterTests (m.remaining p.conditions)) := by
  obtain ⟨text, htext, ts, hread, hsends⟩ := hfits.renders {}
  obtain ⟨tss, hreads, hsends'⟩ := renders_filter (hfits.splits.forall_remaining hmarked)
    (m.expression? p.conditions {}).2
  generalize hfilter : filterExpression? (m.remaining p.conditions)
    (m.expression? p.conditions {}).2 = written at hreads hsends'
  obtain ⟨filter, tokens⟩ := written
  have hall : Sends {} tokens (ts :: tss).flatten
      (((m.used p.conditions).map NormalizedCondition.test ++
        filterTests (m.remaining p.conditions)).map Test.field)
      (((m.used p.conditions).map NormalizedCondition.test ++
        filterTests (m.remaining p.conditions)).flatMap Test.operands) := by
    rw [List.map_append, List.flatMap_append]
    exact hsends.append hsends'
  have hrun : p.matchTexts? m {} =
      (some (⟨m.index, text, m.remaining p.conditions⟩, filter), tokens) := by
    rw [matchTexts?, KeyMatch.keyCondition?, bind_assoc, bind_apply, htext]
    show (some (_, (filterExpression? (m.remaining p.conditions) (m.expression? p.conditions {}).2).1),
      (filterExpression? (m.remaining p.conditions) (m.expression? p.conditions {}).2).2) = _
    rw [hfilter]
  have hwritten := hrequest
  unfold keyQuery at hwritten
  rw [hmatch, Option.map_some, StateT.run, hrun] at hwritten
  obtain rfl := Except.ok.inj hwritten
  obtain ⟨text', filter', a, passes, hquery, ⟨predicate, hparse, -⟩, hmeans, -⟩ :=
    keyQuery_eq hmatch hfits hmarked
  obtain ⟨rfl, rfl, rfl⟩ : text = text' ∧ filter = filter' ∧ tokens.attributes = a := by
    simpa using hrequest.symm.trans hquery
  exact hall.spells (.cons hread hreads)
    (List.forall_mem_cons.mpr ⟨⟨predicate, hparse⟩, hmeans.parses⟩)

end Plan

namespace ResolvedJoin

theorem spells_valueQuery (j : ResolvedJoin) (index : Option String) (v : Value) :
    (j.valueQuery index v).attributes.Spells (j.valueQuery index v).texts
      [⟨j.foreignField, [v]⟩] := by
  obtain ⟨predicate, hparse, -⟩ :=
    textMeans_equality (writes_partitionCondition j.foreignField v).run
  exact (renders_partitionCondition j.foreignField v {}).spells ⟨predicate, hparse⟩

theorem spells_valuesScan (j : ResolvedJoin) {values : List Value} (hne : values ≠ []) :
    (j.valuesScan values).attributes.Spells (j.valuesScan values).texts
      [⟨j.foreignField, values⟩] := by
  have hwrites : Writes (memberFilter j.foreignField values) fun r text =>
      TestReads r.attributes 5 text (.isIn [.key j.foreignField] values) :=
    (writes_name j.foreignField).bind fun name =>
      (Operator.writes_membership name j.foreignField hne).imp fun r text h hname =>
        (h hname).mono (by decide)
  obtain ⟨predicate, hparse, -⟩ := textMeans_membership hwrites.run
  exact (renders_memberFilter j.foreignField values {}).spells ⟨predicate, hparse⟩

end ResolvedJoin

/-! ## What plans ask -/

/-- A test that a plan's requests may make: of a required condition that the store can evaluate, of one
element of a required list, or of the local values of a join. -/
inductive Plan.Tests (p : Plan) : Test → Prop
  | condition {c : NormalizedCondition} (hc : c ∈ p.conditions) (hand : c.connector = .and)
    (hnative : c.operator.isNativeFor c.value = true) : p.Tests c.test
  | element {c : NormalizedCondition} {xs : List Value} {v : Value} (hc : c ∈ p.conditions)
    (hand : c.connector = .and) (hin : c.operator = .isIn) (hlist : c.value = .list xs)
    (hv : v ∈ xs) : p.Tests ⟨c.field, [v]⟩
  | join {j : ResolvedJoin} {rows : List Item} {vs : List Value} (hj : j ∈ p.joins)
    (hvs : ∀ v ∈ vs, v ∈ distinctFieldValues j.localField rows) : p.Tests ⟨j.foreignField, vs⟩

/-- The request looks keys up, or asks for a page by texts whose tests come from the plan. -/
def Request.SpellsOut (p : Plan) : Request → Prop
  | .page request => ∃ tests, request.attributes.Spells request.texts tests ∧
      ∀ test ∈ tests, p.Tests test
  | .batchGet _ _ => True
  | .transact _ _ | .put _ _ | .update _ _ _ _ _ | .delete _ _ => False

/-- All pages of a request have its texts and its tables. -/
theorem FetchPolicy.asks_collect_spells {p : Plan} (policy : FetchPolicy) {request : PageRequest}
    (h : Request.SpellsOut p (.page request)) (limit : Option Nat) :
    Run.Asks (Request.SpellsOut p) (policy.collect request limit) := by
  refine (staysIn_collect (E := fun _ => True) request limit (fun start collected _ => ?_)
    (fun _ => trivial) trivial).asks
  cases limit <;> exact h

theorem FetchPolicy.asks_count_spells {p : Plan} (policy : FetchPolicy) {request : PageRequest}
    (h : Request.SpellsOut p (.page request)) :
    Run.Asks (Request.SpellsOut p) (policy.count request) :=
  (staysIn_count (E := fun _ => True) request (fun _ => h) (fun _ => trivial) trivial).asks

namespace Plan

variable {p : Plan}

theorem tests_of_mem_filterTests (hmarked : ∀ c ∈ p.conditions, c.IsMarked)
    {remaining : List NormalizedCondition} (hsub : ∀ c ∈ remaining, c ∈ p.conditions) :
    ∀ test ∈ filterTests remaining, p.Tests test := by
  unfold filterTests
  split
  · simp
  · rename_i hany
    intro test htest
    obtain ⟨c, hc, rfl⟩ := List.mem_map.mp htest
    have hc' : ¬(c.clientOnly = true ∨ c.connector = .or) := fun h =>
      hany (List.any_eq_true.mpr ⟨c, hc, decide_eq_true h⟩)
    obtain ⟨hnative, hor⟩ := not_or.mp hc'
    exact .condition (hsub c hc) (connector_eq_and hor)
      (isNativeFor_of_isMarked (hmarked c (hsub c hc)) (by simpa using hnative))

/-- The requests of a plan's strategy spell their tests out. -/
theorem spellsOut_of_pageRequests {r : Resolver} {q : FindQuery} (hfollows : p.Follows r q)
    {requests : List PageRequest} (hrequests : p.pageRequests = .ok requests) :
    ∀ request ∈ requests, Request.SpellsOut p (.page request) := by
  have hmarked := isMarked_of_normalizeAll hfollows.conditions
  have hkey : ∀ request, p.keyQuery = .ok request → Request.SpellsOut p (.page request) := by
    intro request hrequest
    cases hmatch : p.keyMatch with
    | none => simp [keyQuery, hmatch] at hrequest
    | some m =>
      have hfits := (KeyMatch.serves_of_find (hmatch ▸ hfollows.found)).1
      refine ⟨_, spells_keyQuery hmatch hfits hmarked hrequest, fun test htest => ?_⟩
      rcases List.mem_append.mp htest with hused | hfilter
      · obtain ⟨c, hc, rfl⟩ := List.mem_map.mp hused
        obtain ⟨hmem, hequality⟩ := hfits.isKeyEquality_of_mem hc
        obtain ⟨hand, hop⟩ := NormalizedCondition.isKeyEquality_iff.mp hequality
        exact .condition hmem hand (by rw [hop]; rfl)
      · exact tests_of_mem_filterTests hmarked
          (fun c hc => (hfits.splits.mem c).mpr (Or.inr hc)) test hfilter
  have hscan : Request.SpellsOut p (.page p.scanRequest) :=
    ⟨_, spells_scanRequest hmarked, tests_of_mem_filterTests hmarked fun _ hc => hc⟩
  have hvalues : ∀ index field, p.valueQueries index field = .ok requests →
      ∀ request ∈ requests, Request.SpellsOut p (.page request) := by
    intro index field hqueries request hrequest
    unfold valueQueries at hqueries
    split at hqueries
    · rename_i m hm
      obtain rfl := Except.ok.inj hqueries
      obtain ⟨v, hv, rfl⟩ := List.mem_map.mp hrequest
      obtain ⟨c, xs, hc, hsplits, rfl, hin, hlist, hdistinct⟩ := Membership.of_find? hm
      refine ⟨_, spells_valueQuery index c.field (hsplits.forall_remaining hmarked) v, ?_⟩
      refine List.forall_mem_cons.mpr ⟨?_, ?_⟩
      · rw [hdistinct] at hv
        exact .element hc (hsplits.required c (by simp)) hin hlist (mem_of_mem_distinctBy hv)
      · exact tests_of_mem_filterTests hmarked fun d hd => (hsplits.mem d).mpr (Or.inr hd)
    · cases hqueries
  have hone : ∀ request, requests = [request] → Request.SpellsOut p (.page request) →
      ∀ request ∈ requests, Request.SpellsOut p (.page request) := by
    rintro request rfl h
    simpa using h
  unfold pageRequests at hrequests
  split at hrequests
  · obtain ⟨request, hrequest, rfl⟩ := exists_of_map_eq_ok hrequests
    exact hone request rfl (hkey request hrequest)
  · obtain ⟨request, hrequest, rfl⟩ := exists_of_map_eq_ok hrequests
    exact hone request rfl (hkey request hrequest)
  · exact hvalues _ _ hrequests
  · obtain rfl := Except.ok.inj hrequests
    simp
  · obtain rfl := Except.ok.inj hrequests
    exact hone _ rfl hscan

theorem asks_batchGet_spells (retry : RetryConfig) (table : String) (keys : List Item) :
    Run.Asks (Request.SpellsOut p) (retry.batchGet table keys) :=
  (retry.staysIn_batchGet (E := fun _ => True) (fun _ => trivial) (fun _ => trivial)
    (fun _ _ => trivial) keys).asks

theorem asks_fetch_spells {r : Resolver} {q : FindQuery} (hfollows : p.Follows r q)
    (policy : FetchPolicy) (limit : Option Nat) :
    Run.Asks (Request.SpellsOut p) (p.fetch policy limit) := by
  by_cases hstrategy : p.directives.baseStrategy = .batchGet
  · unfold fetch
    rw [hstrategy]
    exact (Run.Asks.ofExcept _).bind fun values =>
      (asks_batchGet_spells policy.retry _ _).bind fun items => .pure _
  · rw [fetch_eq_collectInTurn hstrategy]
    exact Run.Asks.ofExcept_bind fun requests hrequests =>
      (Run.Asks.composes _).collectInTurn (fun request hrequest _ => policy.asks_collect_spells
        (spellsOut_of_pageRequests hfollows hrequests request hrequest) _) []

/-- The target rows of a join are asked for by its foreign field, for the local values of the rows. -/
theorem asks_attach_spells {j : ResolvedJoin} (hj : j ∈ p.joins) (policy : FetchPolicy)
    (strategy : Strategy) (rows : List Item) :
    Run.Asks (Request.SpellsOut p) (j.attach policy strategy rows) := by
  have hquery : ∀ index, ∀ v ∈ distinctFieldValues j.localField rows,
      Request.SpellsOut p (.page (j.valueQuery index v)) := fun index v hv =>
    ⟨_, j.spells_valueQuery index v, by simpa using Tests.join hj (by simpa using hv)⟩
  have hscan : ∀ chunk ∈ chunksOf maxBatchKeys (distinctFieldValues j.localField rows),
      Request.SpellsOut p (.page (j.valuesScan chunk)) := fun chunk hchunk =>
    ⟨_, j.spells_valuesScan (ne_nil_of_mem_chunksOf hchunk), by
      simpa using Tests.join hj fun v hv => by
        rw [← flatten_chunksOf maxBatchKeys (distinctFieldValues j.localField rows)]
        exact List.mem_flatten_of_mem hchunk hv⟩
  refine (Run.Asks.composes _).attach ((Run.Asks.composes _).fetch_join
    (asks_batchGet_spells policy.retry _ _) (fun index v hv => ?_) fun chunk hchunk => ?_) strategy
  · exact policy.asks_collect_spells (hquery index v hv) _
  · exact policy.asks_collect_spells (hscan chunk hchunk) _

theorem asks_rows_spells {r : Resolver} {q : FindQuery} (hfollows : p.Follows r q)
    (policy : FetchPolicy) : Run.Asks (Request.SpellsOut p) (p.rows policy) :=
  (Run.Asks.composes _).rows (asks_fetch_spells hfollows policy _)
    fun _ hj strategy rows => asks_attach_spells hj policy strategy rows

theorem asks_countRows_spells {r : Resolver} {q : FindQuery} (hfollows : p.Follows r q)
    (policy : FetchPolicy) : Run.Asks (Request.SpellsOut p) (p.countRows policy) := by
  refine (Run.Asks.composes _).countRows (fun e he => Run.Asks.ofExcept_bind fun page hpage => ?_)
    (asks_fetch_spells hfollows policy none)
  subst hpage
  have hrequests : p.pageRequests = .ok [page] := (of_countRequest? he).2.2
  exact policy.asks_count_spells (spellsOut_of_pageRequests hfollows hrequests page (by simp))

end Plan

end KeyedQuery
