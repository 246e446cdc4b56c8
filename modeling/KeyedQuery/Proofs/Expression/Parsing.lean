import KeyedQuery.Proofs.Expression.Grammar

/-!
# Parsing by the grammar

The parser reads exactly what the grammar derives, and it never gets to its bound on nested calls
(`Predicate.parse_iff`). An operand takes at least one token, so the bound falls more slowly than three
times the tokens that are left (`Expression.isSettled_parseDisjunction`). That everything that is derived
is read goes by induction on the derivation. The parser goes on with a condition as long as it can, so what
follows must not go on with the level that has been read (`Expression.Reads`).
-/

namespace KeyedQuery

namespace Expression

variable {a : Attributes} {ts us rest : List Token} {p q : Predicate} {path : Path} {v : Value}

/-! ## The bound is never reached -/

/-- The result is not that the bound on nested calls was reached. -/
def IsSettled {α : Type} (e : Checked α) : Prop :=
  e ≠ .error .tooDeep

theorem IsSettled.bind {α β : Type} {e : Checked α} {f : α → Checked β} (he : IsSettled e)
    (hf : ∀ x, e = .ok x → IsSettled (f x)) : IsSettled (e >>= f) := by
  cases e with
  | ok x => exact hf x rfl
  | error fault =>
    intro h
    obtain rfl := Except.error.inj h
    exact he rfl

theorem isSettled_ok {α : Type} (x : α) : IsSettled (.ok x) :=
  nofun

theorem isSettled_start (c : Char) : IsSettled (Token.start c) := by
  unfold Token.start
  split <;> try exact isSettled_ok _
  split
  · exact isSettled_ok _
  · exact nofun

theorem isSettled_startAfter (t : Token) (c : Char) : IsSettled (Token.startAfter t c) :=
  (isSettled_start c).bind fun _ _ => isSettled_ok _

theorem isSettled_step (p : Token.Pending) (c : Char) : IsSettled (Token.step p c) := by
  cases p with
  | idle => exact isSettled_start c
  | word kind spelled =>
    rw [Token.step]
    split
    · exact isSettled_ok _
    · exact isSettled_startAfter _ c
  | index spelled =>
    rw [Token.step]
    split
    · split <;> simp [IsSettled]
    · exact isSettled_ok _
  | less =>
    rw [Token.step]
    split
    · exact isSettled_ok _
    · split
      · exact isSettled_ok _
      · exact isSettled_startAfter _ c
  | greater =>
    rw [Token.step]
    split
    · exact isSettled_ok _
    · exact isSettled_startAfter _ c

theorem isSettled_scanFrom (p : Token.Pending) (cs : List Char) :
    IsSettled (Token.scanFrom p cs) := by
  induction cs generalizing p with
  | nil => cases p <;> exact nofun
  | cons c cs ih =>
    exact (isSettled_step p c).bind fun _ _ => (ih _).bind fun _ _ => isSettled_ok _

theorem isSettled_expect (t : Token) (ts : List Token) : IsSettled (expect t ts) := by
  cases ts with
  | nil => simp [expect, IsSettled]
  | cons u us =>
    rw [expect]
    split <;> simp [IsSettled]

theorem isSettled_nameOf (a : Attributes) (t : Option Token) : IsSettled (nameOf a t) := by
  unfold nameOf
  split
  · split <;> simp [IsSettled]
  · simp [IsSettled]
  · simp [IsSettled]

theorem isSettled_valueOf (a : Attributes) (t : Option Token) : IsSettled (valueOf a t) := by
  unfold valueOf
  split
  · split <;> simp [IsSettled]
  · simp [IsSettled]

theorem isSettled_parseValue (a : Attributes) (ts : List Token) : IsSettled (parseValue a ts) :=
  (isSettled_valueOf a ts.head?).bind fun _ _ => isSettled_ok _

theorem isSettled_parseSteps (a : Attributes) (ts : List Token) : IsSettled (parseSteps a ts) := by
  fun_induction parseSteps a ts with
  | case1 t ts ih =>
    exact (isSettled_nameOf a _).bind fun _ _ => ih.bind fun _ _ => isSettled_ok _
  | case2 => simp [IsSettled]
  | case3 i ts ih => exact ih.bind fun _ _ => isSettled_ok _
  | case4 ts => exact isSettled_ok _

theorem isSettled_parsePath (a : Attributes) (ts : List Token) : IsSettled (parsePath a ts) :=
  (isSettled_nameOf a _).bind fun _ _ => (isSettled_parseSteps a _).bind fun _ _ => isSettled_ok _

theorem isSettled_parseMoreValues (a : Attributes) (ts : List Token) :
    IsSettled (parseMoreValues a ts) := by
  fun_induction parseMoreValues a ts with
  | case1 t ts ih =>
    exact (isSettled_valueOf a _).bind fun _ _ => ih.bind fun _ _ => isSettled_ok _
  | case2 => simp [IsSettled]
  | case3 ts => exact isSettled_ok _

theorem isSettled_parseArguments (a : Attributes) (ts : List Token) :
    IsSettled (parseArguments a ts) :=
  (isSettled_expect _ ts).bind fun _ _ => (isSettled_parsePath a _).bind fun _ _ =>
    (isSettled_expect _ _).bind fun _ _ => (isSettled_parseValue a _).bind fun _ _ =>
      (isSettled_expect _ _).bind fun _ _ => isSettled_ok _

theorem isSettled_parseTest (a : Attributes) (ts : List Token) : IsSettled (parseTest a ts) := by
  refine (isSettled_parsePath a ts).bind fun result _ => ?_
  dsimp only
  split
  · exact (isSettled_expect _ _).bind fun _ _ => (isSettled_parseValue a _).bind fun _ _ =>
      (isSettled_parseMoreValues a _).bind fun _ _ => (isSettled_expect _ _).bind fun _ _ =>
        isSettled_ok _
  · split
    · exact (isSettled_parseValue a _).bind fun _ _ => isSettled_ok _
    · simp [IsSettled]

theorem Derives.length_pos {level : Level} (h : Derives a level ts p) : 0 < ts.length := by
  induction h <;> simp_all

mutual

theorem isSettled_parseDisjunction : ∀ {bound : Nat} {ts : List Token},
    3 * ts.length + 3 ≤ bound → IsSettled (parseDisjunction a bound ts)
  | bound + 1, ts, hbound => by
    rw [parseDisjunction]
    refine (isSettled_parseConjunction (by omega)).bind fun (left, rest) hleft => ?_
    obtain ⟨us, rfl, hus⟩ := derives_of_parseConjunction hleft
    have hpos := hus.length_pos
    rw [List.length_append] at hbound
    exact isSettled_parseMoreDisjuncts (by omega)

theorem isSettled_parseMoreDisjuncts : ∀ {bound : Nat} {left : Predicate} {ts : List Token},
    3 * ts.length + 1 ≤ bound → IsSettled (parseMoreDisjuncts a bound left ts)
  | bound + 1, left, ts, hbound => by
    rw [parseMoreDisjuncts]
    split
    · rename_i hor
      obtain ⟨w, ts, rfl, -⟩ := exists_of_atKeyword hor
      rw [List.length_cons] at hbound
      refine (isSettled_parseConjunction (by simp; omega)).bind fun (right, rest) hright => ?_
      obtain ⟨us, hus, -⟩ := derives_of_parseConjunction hright
      obtain rfl : ts = us ++ rest := hus
      rw [List.length_append] at hbound
      exact isSettled_parseMoreDisjuncts (by omega)
    · exact isSettled_ok _

theorem isSettled_parseConjunction : ∀ {bound : Nat} {ts : List Token},
    3 * ts.length + 2 ≤ bound → IsSettled (parseConjunction a bound ts)
  | bound + 1, ts, hbound => by
    rw [parseConjunction]
    refine (isSettled_parseUnary (by omega)).bind fun (left, rest) hleft => ?_
    obtain ⟨us, rfl, hus⟩ := derives_of_parseUnary hleft
    have hpos := hus.length_pos
    rw [List.length_append] at hbound
    exact isSettled_parseMoreConjuncts (by omega)

theorem isSettled_parseMoreConjuncts : ∀ {bound : Nat} {left : Predicate} {ts : List Token},
    3 * ts.length + 1 ≤ bound → IsSettled (parseMoreConjuncts a bound left ts)
  | bound + 1, left, ts, hbound => by
    rw [parseMoreConjuncts]
    split
    · rename_i hand
      obtain ⟨w, ts, rfl, -⟩ := exists_of_atKeyword hand
      rw [List.length_cons] at hbound
      refine (isSettled_parseUnary (by simp; omega)).bind fun (right, rest) hright => ?_
      obtain ⟨us, hus, -⟩ := derives_of_parseUnary hright
      obtain rfl : ts = us ++ rest := hus
      rw [List.length_append] at hbound
      exact isSettled_parseMoreConjuncts (by omega)
    · exact isSettled_ok _

theorem isSettled_parseUnary : ∀ {bound : Nat} {ts : List Token},
    3 * ts.length + 1 ≤ bound → IsSettled (parseUnary a bound ts)
  | bound + 1, ts, hbound => by
    rw [parseUnary]
    split
    · rename_i hnot
      obtain ⟨w, ts, rfl, -⟩ := exists_of_atKeyword hnot
      rw [List.length_cons] at hbound
      exact (isSettled_parseUnary (by simp; omega)).bind fun _ _ => isSettled_ok _
    · split
      · rename_i hparen
        obtain ⟨ts, rfl⟩ := List.head?_eq_some_iff.mp hparen
        rw [List.length_cons] at hbound
        exact (isSettled_parseDisjunction (by simp; omega)).bind fun _ _ =>
          (isSettled_expect _ _).bind fun _ _ => isSettled_ok _
      · split
        · exact (isSettled_parseArguments a _).bind fun _ _ => isSettled_ok _
        · split
          · exact (isSettled_parseArguments a _).bind fun _ _ => isSettled_ok _
          · exact isSettled_parseTest a ts

end

/-! ## What is derived is read -/

theorem atKeyword_eq_false {keyword other : String} {t : Token} (h : t.IsKeyword keyword)
    (hne : sameWord keyword other = false) : atKeyword other (t :: rest) = false := by
  obtain ⟨w, rfl, hw⟩ := h
  simp only [sameWord, decide_eq_true_eq, decide_eq_false_iff_not] at hw hne
  simpa [atKeyword, sameWord, hw] using hne

/-- The parser reads the tokens of a level as the predicate. Behind a conjunction or a disjunction it looks
for further operands. -/
def Reads (a : Attributes) : Level → List Token → Predicate → Prop
  | .unary, ts, p => ∀ bound rest, 3 * ts.length + 1 ≤ bound →
    parseUnary a bound (ts ++ rest) = .ok (p, rest)
  | .conjunction, ts, p => ∀ bound rest, 3 * ts.length + 2 ≤ bound → ∃ further,
    bound ≤ further + ts.length + 1 ∧
      parseConjunction a bound (ts ++ rest) = parseMoreConjuncts a further p rest
  | .disjunction, ts, p => ∀ bound rest, 3 * ts.length + 3 ≤ bound →
    atKeyword "AND" rest = false → ∃ further, bound ≤ further + ts.length + 1 ∧
      parseDisjunction a bound (ts ++ rest) = parseMoreDisjuncts a further p rest

/-- A conjunction is read to its end if no further operand follows. -/
theorem Reads.parseConjunction (h : Reads a .conjunction ts p) {bound : Nat}
    (hbound : 3 * ts.length + 2 ≤ bound) (hrest : atKeyword "AND" rest = false) :
    parseConjunction a bound (ts ++ rest) = .ok (p, rest) := by
  obtain ⟨further, hfurther, hparse⟩ := h bound rest hbound
  obtain ⟨further, rfl⟩ : ∃ n, further = n + 1 := ⟨further - 1, by omega⟩
  simp [hparse, parseMoreConjuncts, hrest]

/-- A disjunction is read to its end if no further operand follows. -/
theorem Reads.parseDisjunction (h : Reads a .disjunction ts p) {bound : Nat}
    (hbound : 3 * ts.length + 3 ≤ bound) (hand : atKeyword "AND" rest = false)
    (hor : atKeyword "OR" rest = false) :
    parseDisjunction a bound (ts ++ rest) = .ok (p, rest) := by
  obtain ⟨further, hfurther, hparse⟩ := h bound rest hbound hand
  obtain ⟨further, rfl⟩ : ∃ n, further = n + 1 := ⟨further - 1, by omega⟩
  simp [hparse, parseMoreDisjuncts, hor]

/-- The bound is never used up, so there is one for a further step. -/
theorem reads_unary (h : ∀ bound rest, 3 * ts.length ≤ bound →
    parseUnary a (bound + 1) (ts ++ rest) = .ok (p, rest)) : Reads a .unary ts p := by
  intro bound rest hbound
  obtain ⟨bound, rfl⟩ : ∃ b, bound = b + 1 := ⟨bound - 1, by omega⟩
  exact h bound rest (by omega)

theorem ne_leftParen_of_isKeyword {keyword : String} {t : Token} (h : t.IsKeyword keyword) :
    t ≠ .leftParen := by
  obtain ⟨_, rfl, -⟩ := h
  simp

/-- A condition that starts with a path is left to `parseTest`, unless its first word opens another
condition. -/
theorem IsPath.parseUnary (h : IsPath a ts path) (hopens : ∀ t ∈ ts.head?, ¬t.OpensCondition)
    (bound : Nat) (rest : List Token) :
    parseUnary a (bound + 1) (ts ++ rest) = parseTest a (ts ++ rest) := by
  cases h with
  | @root t k ts path ht _ =>
    have hnone : ∀ keyword, ¬t.IsKeyword keyword → atKeyword keyword (t :: (ts ++ rest)) = false :=
      fun keyword hnot => Bool.eq_false_iff.mpr fun h => hnot (atKeyword_cons_iff.mp h)
    obtain ⟨hnot, hbegins, hcontains⟩ : ¬t.IsKeyword "NOT" ∧ ¬t.IsKeyword "begins_with" ∧
        ¬t.IsKeyword "contains" := by
      have h := hopens t rfl
      exact ⟨fun hw => h (.inl hw), fun hw => h (.inr (.inl hw)), fun hw => h (.inr (.inr hw))⟩
    have hparen : t ≠ .leftParen := by
      rintro rfl
      cases ht
    simp [Expression.parseUnary, hnone _ hnot, hnone _ hbegins, hnone _ hcontains, hparen]

theorem Derives.reads {level : Level} (h : Derives a level ts p) : Reads a level ts p := by
  induction h with
  | @conjunction ts p _ ih =>
    intro bound rest hbound hrest
    obtain ⟨bound, rfl⟩ : ∃ b, bound = b + 1 := ⟨bound - 1, by omega⟩
    refine ⟨bound, by omega, ?_⟩
    rw [Expression.parseDisjunction, ih.parseConjunction (by omega) hrest]
    rfl
  | @or ts us w p q _ hw _ ihp ihq =>
    intro bound rest hbound hrest
    simp only [List.length_append, List.length_cons] at hbound ⊢
    obtain ⟨further, hfurther, hparse⟩ := ihp bound (w :: (us ++ rest)) (by omega)
      (atKeyword_eq_false hw (by decide +kernel))
    obtain ⟨further, rfl⟩ : ∃ n, further = n + 1 := ⟨further - 1, by omega⟩
    refine ⟨further, by omega, ?_⟩
    rw [List.append_assoc, List.cons_append, hparse, parseMoreDisjuncts,
      if_pos (atKeyword_cons_iff.mpr hw), List.tail_cons, ihq.parseConjunction (by omega) hrest]
    rfl
  | @unary ts p _ ih =>
    intro bound rest hbound
    obtain ⟨bound, rfl⟩ : ∃ b, bound = b + 1 := ⟨bound - 1, by omega⟩
    refine ⟨bound, by omega, ?_⟩
    rw [Expression.parseConjunction, ih bound rest (by omega)]
    rfl
  | @and ts us w p q _ hw _ ihp ihq =>
    intro bound rest hbound
    simp only [List.length_append, List.length_cons] at hbound ⊢
    obtain ⟨further, hfurther, hparse⟩ := ihp bound (w :: (us ++ rest)) (by omega)
    obtain ⟨further, rfl⟩ : ∃ n, further = n + 1 := ⟨further - 1, by omega⟩
    refine ⟨further, by omega, ?_⟩
    rw [List.append_assoc, List.cons_append, hparse, parseMoreConjuncts,
      if_pos (atKeyword_cons_iff.mpr hw), List.tail_cons, ihq further rest (by omega)]
    rfl
  | @not ts w p hw _ ih =>
    refine reads_unary fun bound rest hbound => ?_
    rw [List.length_cons] at hbound
    rw [List.cons_append, parseUnary, if_pos (atKeyword_cons_iff.mpr hw), List.tail_cons,
      ih bound rest (by omega)]
    rfl
  | @group ts p _ ih =>
    refine reads_unary fun bound rest hbound => ?_
    simp only [List.length_cons, List.length_append] at hbound
    have hinner : parseDisjunction a bound (ts ++ .rightParen :: rest) =
        .ok (p, .rightParen :: rest) := ih.parseDisjunction (by omega) rfl rfl
    simp [parseUnary, atKeyword, hinner, expect_cons, bind, Except.bind]
  | @beginsWith ts w path v hw h =>
    refine reads_unary fun bound rest _ => ?_
    have hnot : atKeyword "NOT" (w :: (ts ++ rest)) = false :=
      atKeyword_eq_false hw (by decide +kernel)
    have hbegins : atKeyword "begins_with" (w :: (ts ++ rest)) = true := atKeyword_cons_iff.mpr hw
    simp [parseUnary, hnot, ne_leftParen_of_isKeyword hw, hbegins, h.parseArguments rest, bind,
      Except.bind]
  | @contains ts w path v hw h =>
    refine reads_unary fun bound rest _ => ?_
    have hnot : atKeyword "NOT" (w :: (ts ++ rest)) = false :=
      atKeyword_eq_false hw (by decide +kernel)
    have hbegins : atKeyword "begins_with" (w :: (ts ++ rest)) = false :=
      atKeyword_eq_false hw (by decide +kernel)
    have hcontains : atKeyword "contains" (w :: (ts ++ rest)) = true := atKeyword_cons_iff.mpr hw
    simp [parseUnary, hnot, ne_leftParen_of_isKeyword hw, hbegins, hcontains, h.parseArguments rest,
      bind, Except.bind]
  | @isIn ts us w t path v vs h hopens hw hv hvs =>
    refine reads_unary fun bound rest _ => ?_
    have hends : EndsPath (w :: .leftParen :: t :: (us ++ .rightParen :: rest)) := by
      obtain ⟨word, rfl, -⟩ := hw
      exact endsPath_word word _
    have hpath := h.parsePath hends
    rw [List.append_assoc, h.parseUnary hopens]
    simp [parseTest, hpath, atKeyword_cons_iff.mpr hw, expect_cons, hv.parseValue,
      hvs.parseMoreValues, bind, Except.bind]
  | @compare ts t path op v h hopens hv =>
    refine reads_unary fun bound rest _ => ?_
    rw [List.append_assoc, h.parseUnary hopens]
    simp [parseTest, h.parsePath (endsPath_comparator op _), atKeyword, hv.parseValue, bind,
      Except.bind]

/-- The tokens are a condition exactly if the parser reads all of them. -/
theorem derives_iff : Derives a .disjunction ts p ↔
    parseDisjunction a (3 * ts.length + 3) ts = .ok (p, []) := by
  constructor
  · intro h
    have hparse : parseDisjunction a (3 * ts.length + 3) (ts ++ []) = .ok (p, []) :=
      h.reads.parseDisjunction (Nat.le_refl _) rfl rfl
    rwa [List.append_nil] at hparse
  · intro h
    obtain ⟨us, hus, hderives⟩ := derives_of_parseDisjunction h
    rw [List.append_nil] at hus
    exact hus ▸ hderives

/-- The tokens are a condition in one way at most. -/
theorem Derives.eq (hp : Derives a .disjunction ts p) (hq : Derives a .disjunction ts q) : p = q :=
  (Prod.mk.inj (Except.ok.inj ((derives_iff.mp hp).symm.trans (derives_iff.mp hq)))).1

end Expression

/-- Parsing comes to an end without getting to its bound. It ends with a predicate exactly if the text is
made of tokens and the tokens are a condition by the grammar, and with the one that the grammar
says. -/
theorem Predicate.parse_iff (a : Attributes) (text : String) :
    parse a text ≠ .error .tooDeep ∧ ∀ p, parse a text = .ok p ↔
      ∃ tokens, Token.scan text = .ok tokens ∧ Expression.Derives a .disjunction tokens p := by
  refine ⟨?_, fun p => ⟨fun h => ?_, fun ⟨tokens, hscan, hderives⟩ => ?_⟩⟩
  · refine (Expression.isSettled_scanFrom .idle text.toList).bind fun tokens _ => ?_
    refine (Expression.isSettled_parseDisjunction (Nat.le_refl _)).bind fun (p, rest) _ => ?_
    dsimp only
    split <;> exact nofun
  · obtain ⟨tokens, hscan, h⟩ := exists_of_bind_eq_ok h
    obtain ⟨⟨p, rest⟩, hparse, h⟩ := exists_of_bind_eq_ok h
    dsimp only at h
    split at h
    · rename_i hend
      obtain rfl := Except.ok.inj h
      obtain rfl := List.isEmpty_iff.mp hend
      exact ⟨tokens, hscan, Expression.derives_iff.mpr hparse⟩
    · cases h
  · rw [parse, hscan]
    show Except.bind (Expression.parseDisjunction a (3 * tokens.length + 3) tokens) _ = _
    rw [Expression.derives_iff.mp hderives]
    rfl

end KeyedQuery
