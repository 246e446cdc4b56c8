import KeyedQuery.Proofs.Expression.Path
import KeyedQuery.Query.Evaluation

/-!
# Reading conditions back

`Operator.predicate?` is the parsed form of an operator on an attribute, for those that the store
takes. The text that `Operator.fragment?` writes reads as that form (`writes_fragment`), and tests
with `AND` between them parse to their conjunction (`parse_conjunction`).
-/

namespace KeyedQuery

open Expression Placeholders

/-! ## Parsed forms -/

namespace Operator

/-- The parsed form of an operator, if the store has a form for it with this value. -/
def predicate? (op : Operator) (field : String) (expected : Value) : Option Predicate :=
  match op, expected with
  | .eq, v => some (.compare [.key field] .eq v)
  | .ne, v => some (.compare [.key field] .ne v)
  | .gt, v => some (.compare [.key field] .gt v)
  | .gte, v => some (.compare [.key field] .ge v)
  | .lt, v => some (.compare [.key field] .lt v)
  | .lte, v => some (.compare [.key field] .le v)
  | .isIn, .list xs => if isMemberList (.list xs) then some (.isIn [.key field] xs) else none
  | .notIn, .list xs =>
    if isMemberList (.list xs) then some (.not (.isIn [.key field] xs)) else none
  | .contains, v => some (.contains [.key field] v)
  | .startsWith, v => some (.beginsWith [.key field] v)
  | .endsWith, _ | .isIn, _ | .notIn, _ => none

end Operator

/-- The conjunction of tests, associated to the left. -/
def Predicate.conjunction (first : Predicate) (others : List Predicate) : Predicate :=
  others.foldl .and first

theorem Predicate.holds_conjunction (item : Item) : ∀ (first : Predicate) (others : List Predicate),
    (conjunction first others).holds item = (first :: others).all fun p => p.holds item
  | first, [] => by simp [conjunction]
  | first, p :: others => by
    show (conjunction (.and first p) others).holds item = _
    rw [holds_conjunction item (.and first p) others]
    simp [holds, Bool.and_assoc]

/-! ## Single tests -/

theorem sameWord_self (w : String) : sameWord w w = true := by
  simp [sameWord]

theorem Placeholders.Names.parsePath {r : Placeholders} {token field : String}
    (h : r.Names token field) {tail : List Token} (htail : EndsPath tail) :
    parsePath r.attributes (.name token :: tail) = .ok ([.key field], tail) := by
  rw [Expression.parsePath, List.head?_cons, h.nameOf, List.tail_cons]
  show Except.bind (parseSteps r.attributes tail) _ = _
  rw [parseSteps_of_endsPath _ htail]
  rfl

/-- The text reads as a test that takes no more than some nested calls to parse. -/
def TestReads (a : Attributes) (depth : Nat) (s : String) (p : Predicate) : Prop :=
  ∃ ts, 3 ≤ ts.length ∧ Token.Reads s ts ∧ ∀ bound, depth ≤ bound → ∀ tail,
    parseUnary a bound (ts ++ tail) = .ok (p, tail)

theorem TestReads.mono {a : Attributes} {depth depth' : Nat} {s : String} {p : Predicate}
    (h : TestReads a depth s p) (hle : depth ≤ depth') : TestReads a depth' s p := by
  obtain ⟨ts, hlength, hreads, hparse⟩ := h
  exact ⟨ts, hlength, hreads, fun bound hbound => hparse bound (Nat.le_trans hle hbound)⟩

variable {r : Placeholders} {name token field : String} {v : Value}

theorem endsPath_word (w : String) (tail : List Token) : EndsPath (.word w :: tail) := by
  intro t ht
  obtain rfl := Option.some.inj ht
  simp

theorem endsPath_comma (tail : List Token) : EndsPath (.comma :: tail) := by
  intro t ht
  obtain rfl := Option.some.inj ht
  simp

/-- A test that starts with a name is left to `parseTest`. -/
theorem parseUnary_name (a : Attributes) (bound : Nat) (tail : List Token) :
    parseUnary a (bound + 1) (.name token :: tail) = parseTest a (.name token :: tail) := by
  simp [parseUnary, atKeyword]

theorem testReads_comparison {sign : String} {op : Comparator} (hname : r.Names name field)
    (hv : r.Holds token v) (hsign : Token.Closes (" " ++ sign ++ " ") [.comparator op]) :
    TestReads r.attributes 1 (name ++ " " ++ sign ++ " " ++ token)
      (.compare [.key field] op v) := by
  refine ⟨[.name name, .comparator op, .value token], by simp, ?_, fun bound hbound tail => ?_⟩
  · have hend : Token.EndsWord (" " ++ sign ++ " ").toList := by
      rw [String.append_assoc]
      exact Token.endsWord_toList_append (by decide) (by decide) _
    have hreads := (hname.reads.1.append_closes hsign hend (by simp)).append hv.reads.1
    simpa [String.append_assoc] using hreads
  · obtain ⟨bound, rfl⟩ : ∃ b, bound = b + 1 := ⟨bound - 1, by omega⟩
    rw [List.cons_append, parseUnary_name, parseTest]
    show Except.bind (parsePath r.attributes (.name name :: .comparator op :: .value token :: tail)) _ = _
    rw [hname.parsePath (endsPath_comparator op _)]
    show Except.bind (parseValue r.attributes (.value token :: tail)) _ = _
    rw [parseValue_value hv]
    rfl

theorem parseMoreValues_values (tail : List Token) : ∀ {tokens : List String} {vs : List Value},
    List.Forall₂ r.Holds tokens vs →
      parseMoreValues r.attributes
          (tokens.flatMap (fun token => [.comma, .value token]) ++ .rightParen :: tail) =
        .ok (vs, .rightParen :: tail)
  | [], [], .nil => by simp [parseMoreValues]
  | token :: tokens, v :: vs, .cons hv hrest => by
    rw [List.flatMap_cons, List.append_assoc]
    show parseMoreValues r.attributes (.comma :: .value token :: (_ ++ _)) = _
    rw [parseMoreValues, hv.valueOf]
    show Except.bind (parseMoreValues r.attributes (_ ++ _)) _ = _
    rw [List.nil_append, parseMoreValues_values tail hrest]
    rfl

theorem reads_values : ∀ {token : String} {tokens : List String} {v : Value} {vs : List Value},
    r.Holds token v → List.Forall₂ r.Holds tokens vs →
      Token.Reads (", ".intercalate (token :: tokens))
        (.value token :: tokens.flatMap fun token => [.comma, .value token])
  | token, [], v, _, hv, .nil => by
    rw [String.intercalate_singleton]
    exact hv.reads.1
  | token, token' :: tokens, v, v' :: vs, hv, .cons hv' hrest => by
    have hcomma : Token.Closes ", " [.comma] := Token.closes_of_stepAll rfl
    rw [String.intercalate_cons_cons]
    exact (hv.reads.1.append_closes hcomma (by decide) (by decide)).append (reads_values hv' hrest)

theorem testReads_membership {tokens : List String} {vs : List Value} (hname : r.Names name field)
    (hvs : List.Forall₂ r.Holds tokens vs) (hne : vs ≠ []) :
    TestReads r.attributes 1 (name ++ " IN (" ++ ", ".intercalate tokens ++ ")")
      (.isIn [.key field] vs) := by
  cases hvs with
  | nil => exact absurd rfl hne
  | @cons token v tokens vs hv hrest =>
    have hopen : Token.Closes " IN (" [.word "IN", .leftParen] := Token.closes_of_stepAll rfl
    have hclose : Token.Closes ")" [.rightParen] := Token.closes_of_stepAll rfl
    refine ⟨.name name :: .word "IN" :: .leftParen :: .value token ::
      (tokens.flatMap (fun token => [.comma, .value token]) ++ [.rightParen]), by simp, ?_,
      fun bound hbound tail => ?_⟩
    · have hreads := ((hname.reads.1.append_closes hopen (by decide) (by decide)).append
        (reads_values hv hrest)).append_closes hclose (by decide) (by decide)
      simpa using hreads.reads
    · obtain ⟨bound, rfl⟩ : ∃ b, bound = b + 1 := ⟨bound - 1, by omega⟩
      rw [List.cons_append, parseUnary_name, parseTest]
      show Except.bind (parsePath r.attributes (.name name :: .word "IN" :: (_ ++ _))) _ = _
      rw [hname.parsePath (endsPath_word "IN" _)]
      show (if sameWord "IN" "IN" = true then _ else _) = _
      rw [if_pos (sameWord_self "IN")]
      show Except.bind (parseValue r.attributes (.value token :: (_ ++ _))) _ = _
      rw [parseValue_value hv]
      show Except.bind (parseMoreValues r.attributes (_ ++ _ ++ tail)) _ = _
      rw [List.append_assoc, List.singleton_append, parseMoreValues_values tail hrest]
      rfl

theorem parseArguments_name (hname : r.Names name field) (hv : r.Holds token v)
    (tail : List Token) :
    parseArguments r.attributes
        (.leftParen :: .name name :: .comma :: .value token :: .rightParen :: tail) =
      .ok (([.key field], v), tail) := by
  rw [parseArguments]
  show Except.bind (parsePath r.attributes (.name name :: .comma :: _)) _ = _
  rw [hname.parsePath (endsPath_comma _)]
  show Except.bind (parseValue r.attributes (.value token :: _)) _ = _
  rw [parseValue_value hv]
  rfl

theorem reads_application {function : String} (hname : r.Names name field) (hv : r.Holds token v)
    (hfunction : Token.Closes (function ++ "(") [.word function, .leftParen]) :
    Token.Reads (function ++ "(" ++ name ++ ", " ++ token ++ ")")
      [.word function, .leftParen, .name name, .comma, .value token, .rightParen] := by
  have hcomma : Token.Closes ", " [.comma] := Token.closes_of_stepAll rfl
  have hclose : Token.Closes ")" [.rightParen] := Token.closes_of_stepAll rfl
  have hargument := (hfunction.append hname.reads.1).append_closes hcomma (by decide) (by decide)
  exact ((hargument.append hv.reads.1).append_closes hclose (by decide) (by decide)).reads

theorem testReads_contains (hname : r.Names name field) (hv : r.Holds token v) :
    TestReads r.attributes 1 ("contains" ++ "(" ++ name ++ ", " ++ token ++ ")")
      (.contains [.key field] v) := by
  refine ⟨_, by simp, reads_application hname hv (Token.closes_of_stepAll rfl),
    fun bound hbound tail => ?_⟩
  obtain ⟨bound, rfl⟩ : ∃ b, bound = b + 1 := ⟨bound - 1, by omega⟩
  have hnot : sameWord "contains" "NOT" = false := by decide +kernel
  have hbegins : sameWord "contains" "begins_with" = false := by decide +kernel
  simp [parseUnary, atKeyword, hnot, hbegins, sameWord_self, parseArguments_name hname hv, bind,
    Except.bind]

theorem testReads_beginsWith (hname : r.Names name field) (hv : r.Holds token v) :
    TestReads r.attributes 1 ("begins_with" ++ "(" ++ name ++ ", " ++ token ++ ")")
      (.beginsWith [.key field] v) := by
  refine ⟨_, by simp, reads_application hname hv (Token.closes_of_stepAll rfl),
    fun bound hbound tail => ?_⟩
  obtain ⟨bound, rfl⟩ : ∃ b, bound = b + 1 := ⟨bound - 1, by omega⟩
  have hnot : sameWord "begins_with" "NOT" = false := by decide +kernel
  simp [parseUnary, atKeyword, hnot, sameWord_self, parseArguments_name hname hv, bind,
    Except.bind]

/-- A negated test in parentheses takes four more calls than the test. -/
theorem TestReads.not {a : Attributes} {s : String} {p : Predicate} (h : TestReads a 1 s p) :
    TestReads a 5 ("NOT (" ++ s ++ ")") (.not p) := by
  obtain ⟨ts, hlength, hreads, hparse⟩ := h
  have hopen : Token.Closes "NOT (" [.word "NOT", .leftParen] := Token.closes_of_stepAll rfl
  have hclose : Token.Closes ")" [.rightParen] := Token.closes_of_stepAll rfl
  refine ⟨.word "NOT" :: .leftParen :: (ts ++ [.rightParen]), by simp, ?_,
    fun bound hbound tail => ?_⟩
  · simpa using ((hopen.append hreads).append_closes hclose (by decide) (by decide)).reads
  · obtain ⟨bound, rfl⟩ : ∃ b, bound = b + 5 := ⟨bound - 5, by omega⟩
    have hinner : parseDisjunction a (bound + 3) (ts ++ (.rightParen :: tail)) =
        .ok (p, .rightParen :: tail) := by
      rw [parseDisjunction, parseConjunction, hparse (bound + 1) (by omega)]
      simp [parseMoreConjuncts, parseMoreDisjuncts, atKeyword, bind, Except.bind]
    simp [parseUnary, atKeyword, sameWord_self, hinner, expect, bind, Except.bind]

/-! ## Fragments -/

theorem writes_valueList : ∀ vs : List Value, Writes (valueList vs) fun r text =>
    ∃ tokens, text = ", ".intercalate tokens ∧ List.Forall₂ r.Holds tokens vs := by
  have hvalues : ∀ vs : List Value, Writes (vs.mapM Placeholders.value) fun r tokens =>
      List.Forall₂ r.Holds tokens vs := by
    intro vs
    induction vs with
    | nil => exact Writes.pure fun r => .nil
    | cons v vs ih =>
      rw [List.mapM_cons]
      refine (writes_value v).bind fun token => ?_
      exact ih.bind fun tokens => Writes.pure fun r htokens htoken => .cons htoken htokens
  intro vs
  exact (hvalues vs).bind fun tokens => Writes.pure fun r htokens => ⟨tokens, rfl, htokens⟩

theorem Placeholders.Writes.map {α β : Type} {P : Placeholders → α → Prop}
    {Q : Placeholders → β → Prop} {m : StateM Placeholders α} {f : α → β} (hm : Writes m P)
    (h : ∀ r a, P r a → Q r (f a)) : Writes (f <$> m) Q :=
  (hm.imp h : Writes m fun r a => Q r (f a))

namespace Operator

/-- The text of a comparison reads as it. -/
theorem writes_comparison {sign : String} {op : Comparator}
    (hsign : Token.Closes (" " ++ sign ++ " ") [.comparator op]) (name field : String) (v : Value) :
    Writes (comparison name sign v) fun r text =>
      r.Names name field → TestReads r.attributes 1 text (.compare [.key field] op v) :=
  (writes_value v).bind fun _ => Writes.pure fun _ hv hname => testReads_comparison hname hv hsign

theorem writes_membership (name field : String) {vs : List Value} (hne : vs ≠ []) :
    Writes (membership name vs) fun r text =>
      r.Names name field → TestReads r.attributes 1 text (.isIn [.key field] vs) :=
  (writes_valueList vs).bind fun _ => Writes.pure fun _ htokens hname => by
    obtain ⟨tokens, rfl, hvs⟩ := htokens
    exact testReads_membership hname hvs hne

theorem ne_nil_of_isMemberList {xs : List Value} (h : isMemberList (.list xs) = true) :
    xs ≠ [] := by
  rintro rfl
  simp [isMemberList] at h

/-- An operator is written as a text that reads as its parsed form, if it has one. -/
theorem writes_fragment (op : Operator) (name field : String) (v : Value) :
    Writes (op.fragment? name v) fun r text =>
      r.Names name field → Option.Rel (TestReads r.attributes 5) text (op.predicate? field v) := by
  have hcompare : ∀ {sign : String} {cmp : Comparator},
      Token.Closes (" " ++ sign ++ " ") [.comparator cmp] →
      Writes (some <$> comparison name sign v) fun r text => r.Names name field →
        Option.Rel (TestReads r.attributes 5) text (some (.compare [.key field] cmp v)) :=
    fun hsign => (writes_comparison hsign name field v).map fun r text h hname =>
      .some ((h hname).mono (by decide))
  have hnone : Writes (pure none) fun r text => r.Names name field →
      Option.Rel (TestReads r.attributes 5) text none :=
    Writes.pure fun r _ => .none
  cases op with
  | eq => exact hcompare (Token.closes_of_stepAll rfl)
  | ne => exact hcompare (Token.closes_of_stepAll rfl)
  | gt => exact hcompare (Token.closes_of_stepAll rfl)
  | gte => exact hcompare (Token.closes_of_stepAll rfl)
  | lt => exact hcompare (Token.closes_of_stepAll rfl)
  | lte => exact hcompare (Token.closes_of_stepAll rfl)
  | isIn =>
    cases v with
    | list xs =>
      rw [fragment?, predicate?]
      split
      · rename_i hlist
        exact (writes_membership name field (ne_nil_of_isMemberList hlist)).map
          fun r text h hname => .some ((h hname).mono (by decide))
      · exact hnone
    | _ => exact hnone
  | notIn =>
    cases v with
    | list xs =>
      rw [fragment?, predicate?]
      split
      · rename_i hlist
        exact (writes_membership name field (ne_nil_of_isMemberList hlist)).bind
          fun text => Writes.pure fun r h hname => .some (h hname).not
      · exact hnone
    | _ => exact hnone
  | contains =>
    have happlication : Writes (application "contains" name v) fun r text =>
        r.Names name field → TestReads r.attributes 1 text (.contains [.key field] v) :=
      (writes_value v).bind fun _ => Writes.pure fun _ hv hname => testReads_contains hname hv
    exact happlication.map fun r text h hname => .some ((h hname).mono (by decide))
  | startsWith =>
    have happlication : Writes (application "begins_with" name v) fun r text =>
        r.Names name field → TestReads r.attributes 1 text (.beginsWith [.key field] v) :=
      (writes_value v).bind fun _ => Writes.pure fun _ hv hname => testReads_beginsWith hname hv
    exact happlication.map fun r text h hname => .some ((h hname).mono (by decide))
  | endsWith => exact hnone

end Operator

/-! ## Conjunctions -/

/-- Further tests behind a conjunction, each with `AND` in front. -/
theorem parseMoreConjuncts_tests {a : Attributes} : ∀ {tss : List (List Token)} {ps : List Predicate}
    (bound : Nat) (left : Predicate), ps.length + 6 ≤ bound →
    List.Forall₂ (fun ts p => ∀ bound, 5 ≤ bound → ∀ tail,
      parseUnary a bound (ts ++ tail) = .ok (p, tail)) tss ps →
    parseMoreConjuncts a bound left (tss.flatMap fun ts => .word "AND" :: ts) =
      .ok (left.conjunction ps, [])
  | [], [], bound, left, hbound, .nil => by
    obtain ⟨bound, rfl⟩ : ∃ b, bound = b + 1 := ⟨bound - 1, by omega⟩
    simp [parseMoreConjuncts, atKeyword, Predicate.conjunction]
  | ts :: tss, p :: ps, bound, left, hbound, .cons hparse hrest => by
    rw [List.length_cons] at hbound
    obtain ⟨bound, rfl⟩ : ∃ b, bound = b + 1 := ⟨bound - 1, by omega⟩
    have hmore := parseMoreConjuncts_tests bound (.and left p) (by omega) hrest
    have hfirst := hparse bound (by omega) (tss.flatMap fun ts => .word "AND" :: ts)
    rw [List.flatMap_cons, List.cons_append, parseMoreConjuncts]
    simp only [atKeyword, sameWord_self, if_true, List.tail_cons, hfirst, bind, Except.bind]
    exact hmore

theorem reads_tests {a : Attributes} : ∀ {texts : List String} {first : String}
    {ps : List Predicate} {p : Predicate},
    List.Forall₂ (TestReads a 5) (first :: texts) (p :: ps) →
      ∃ ts tss, Token.Reads (" AND ".intercalate (first :: texts))
          (ts ++ tss.flatMap fun ts => .word "AND" :: ts) ∧
        3 * (ps.length + 1) ≤ (ts ++ tss.flatMap fun ts => .word "AND" :: ts).length ∧
        List.Forall₂ (fun ts p => ∀ bound, 5 ≤ bound → ∀ tail,
          parseUnary a bound (ts ++ tail) = .ok (p, tail)) (ts :: tss) (p :: ps)
  | [], first, [], p, .cons h .nil => by
    obtain ⟨ts, hlength, hreads, hparse⟩ := h
    refine ⟨ts, [], ?_, by simpa using hlength, .cons hparse .nil⟩
    rw [String.intercalate_singleton]
    simpa using hreads
  | second :: texts, first, q :: ps, p, .cons h hrest => by
    obtain ⟨ts, hlength, hreads, hparse⟩ := h
    obtain ⟨us, uss, hreads', hlength', hparse'⟩ := reads_tests hrest
    have hand : Token.Closes " AND " [.word "AND"] := Token.closes_of_stepAll rfl
    refine ⟨ts, us :: uss, ?_, ?_, .cons hparse hparse'⟩
    · rw [String.intercalate_cons_cons]
      simpa using (hreads.append_closes hand (by decide) (by decide)).append hreads'
    · simp only [List.length_append, List.flatMap_cons, List.length_cons] at hlength' ⊢
      omega

/-- Tests with `AND` between them parse to their conjunction. -/
theorem parse_conjunction {a : Attributes} {texts : List String} {first : String}
    {ps : List Predicate} {p : Predicate}
    (h : List.Forall₂ (TestReads a 5) (first :: texts) (p :: ps)) :
    Predicate.parse a (" AND ".intercalate (first :: texts)) = .ok (p.conjunction ps) := by
  obtain ⟨ts, tss, hreads, hlength, hparse⟩ := reads_tests h
  cases hparse with
  | cons hfirst hrest =>
    generalize htokens : (ts ++ tss.flatMap fun ts => Token.word "AND" :: ts) = tokens at *
    obtain ⟨bound, hbound⟩ : ∃ b, 3 * tokens.length + 3 = b + 2 := ⟨3 * tokens.length + 1, rfl⟩
    have hall : parseDisjunction a (bound + 2) tokens = .ok (p.conjunction ps, []) := by
      have hmore := parseMoreConjuncts_tests bound p (by omega) hrest
      obtain ⟨bound, rfl⟩ : ∃ b, bound = b + 1 := ⟨bound - 1, by omega⟩
      rw [parseDisjunction, parseConjunction, ← htokens, hfirst (bound + 1) (by omega)]
      simp [hmore, parseMoreDisjuncts, atKeyword, bind, Except.bind]
    rw [Predicate.parse, hreads.scan]
    show Except.bind (parseDisjunction a (3 * tokens.length + 3) tokens) _ = _
    rw [hbound, hall]
    rfl

end KeyedQuery
