import KeyedQuery.Proofs.Dialogue
import KeyedQuery.Proofs.Expression.Condition

/-!
# The grammar of conditions

`Derives` says which tokens are a condition, and which predicate they stand for. It has a level for each
of the binary words: a disjunction is made of conjunctions, these are made of negations, groups and tests.
Both binary words associate to the left, because their left operand is of their own level and the right
one of the next. A test that starts with a path does not start with a word that opens another condition
(`OpensCondition`), so such a word is never a name there.

What the parser reads is derived (`Expression.derives_of_parseDisjunction`). The induction is on the bound
on nested calls, and an operand that has been read is carried along with its derivation.
-/

namespace KeyedQuery

/-! ## The grammar -/

/-- The token is a keyword, in any case. -/
def Token.IsKeyword (keyword : String) (t : Token) : Prop :=
  ∃ w, t = .word w ∧ sameWord w keyword = true

/-- The token is a word that opens a negation or the application of a function. -/
def Token.OpensCondition (t : Token) : Prop :=
  t.IsKeyword "NOT" ∨ t.IsKeyword "begins_with" ∨ t.IsKeyword "contains"

namespace Expression

section

variable (a : Attributes)

/-- The token is a name: a placeholder that is defined, or a bare word. -/
inductive IsName : Token → String → Prop
  | placeholder {token name : String} (h : Fields.get? a.names token = some name) :
    IsName (.name token) name
  | bare (name : String) : IsName (.word name) name

/-- The token is a value: a placeholder that is defined. -/
inductive IsValue : Token → Value → Prop
  | placeholder {token : String} {v : Value} (h : Fields.get? a.values token = some v) :
    IsValue (.value token) v

/-- The tokens are steps of a path: names behind points, and list indexes. -/
inductive IsSteps : List Token → Path → Prop
  | nil : IsSteps [] []
  | name {t : Token} {k : String} {ts : List Token} {path : Path} (ht : IsName a t k)
    (h : IsSteps ts path) : IsSteps (.dot :: t :: ts) (.key k :: path)
  | index {i : Nat} {ts : List Token} {path : Path} (h : IsSteps ts path) :
    IsSteps (.index i :: ts) (.index i :: path)

/-- The tokens are a path: a name and the steps behind it. -/
inductive IsPath : List Token → Path → Prop
  | root {t : Token} {k : String} {ts : List Token} {path : Path} (ht : IsName a t k)
    (h : IsSteps a ts path) : IsPath (t :: ts) (.key k :: path)

/-- The tokens are further values, each behind a comma. -/
inductive IsMoreValues : List Token → List Value → Prop
  | nil : IsMoreValues [] []
  | cons {t : Token} {v : Value} {ts : List Token} {vs : List Value} (ht : IsValue a t v)
    (h : IsMoreValues ts vs) : IsMoreValues (.comma :: t :: ts) (v :: vs)

/-- The tokens are a path and a value in parentheses. -/
inductive IsArguments : List Token → Path → Value → Prop
  | pair {t : Token} {v : Value} {ts : List Token} {path : Path} (h : IsPath a ts path)
    (ht : IsValue a t v) : IsArguments (.leftParen :: (ts ++ [.comma, t, .rightParen])) path v

/-- How strongly the parts of a condition are bound, weakest first. -/
inductive Level where
  | disjunction | conjunction | unary
deriving DecidableEq

/-- The tokens are a condition of a level, and stand for a predicate. -/
inductive Derives : Level → List Token → Predicate → Prop
  | conjunction {ts : List Token} {p : Predicate} (h : Derives .conjunction ts p) :
    Derives .disjunction ts p
  | or {ts us : List Token} {w : Token} {p q : Predicate} (hp : Derives .disjunction ts p)
    (hw : w.IsKeyword "OR") (hq : Derives .conjunction us q) :
    Derives .disjunction (ts ++ w :: us) (.or p q)
  | unary {ts : List Token} {p : Predicate} (h : Derives .unary ts p) : Derives .conjunction ts p
  | and {ts us : List Token} {w : Token} {p q : Predicate} (hp : Derives .conjunction ts p)
    (hw : w.IsKeyword "AND") (hq : Derives .unary us q) :
    Derives .conjunction (ts ++ w :: us) (.and p q)
  | not {ts : List Token} {w : Token} {p : Predicate} (hw : w.IsKeyword "NOT")
    (h : Derives .unary ts p) : Derives .unary (w :: ts) (.not p)
  | group {ts : List Token} {p : Predicate} (h : Derives .disjunction ts p) :
    Derives .unary (.leftParen :: (ts ++ [.rightParen])) p
  | beginsWith {ts : List Token} {w : Token} {path : Path} {v : Value}
    (hw : w.IsKeyword "begins_with") (h : IsArguments a ts path v) :
    Derives .unary (w :: ts) (.beginsWith path v)
  | contains {ts : List Token} {w : Token} {path : Path} {v : Value}
    (hw : w.IsKeyword "contains") (h : IsArguments a ts path v) :
    Derives .unary (w :: ts) (.contains path v)
  | isIn {ts us : List Token} {w t : Token} {path : Path} {v : Value} {vs : List Value}
    (h : IsPath a ts path) (hopens : ∀ t ∈ ts.head?, ¬t.OpensCondition) (hw : w.IsKeyword "IN")
    (hv : IsValue a t v) (hvs : IsMoreValues a us vs) :
    Derives .unary (ts ++ w :: .leftParen :: t :: (us ++ [.rightParen])) (.isIn path (v :: vs))
  | compare {ts : List Token} {t : Token} {path : Path} {op : Comparator} {v : Value}
    (h : IsPath a ts path) (hopens : ∀ t ∈ ts.head?, ¬t.OpensCondition) (hv : IsValue a t v) :
    Derives .unary (ts ++ [.comparator op, t]) (.compare path op v)

end

variable {a : Attributes} {ts us rest : List Token} {p q : Predicate} {path : Path} {v : Value}

/-! ## Names, paths and values -/

theorem atKeyword_cons_iff {keyword : String} {t : Token} :
    atKeyword keyword (t :: rest) = true ↔ t.IsKeyword keyword := by
  cases t <;> simp [atKeyword, Token.IsKeyword]

theorem exists_of_atKeyword {keyword : String} (h : atKeyword keyword ts = true) :
    ∃ w rest, ts = w :: rest ∧ w.IsKeyword keyword := by
  cases ts with
  | nil => cases h
  | cons w rest => exact ⟨w, rest, rfl, atKeyword_cons_iff.mp h⟩

theorem exists_of_expect_eq_ok {t : Token} (h : expect t ts = .ok rest) : ts = t :: rest := by
  cases ts with
  | nil => cases h
  | cons u us =>
    rw [expect] at h
    split at h
    · rename_i heq
      rw [heq, Except.ok.inj h]
    · cases h

theorem expect_cons (t : Token) (rest : List Token) : expect t (t :: rest) = .ok rest := by
  simp [expect]

theorem nameOf_eq_ok_iff {t : Token} {k : String} :
    nameOf a (some t) = .ok k ↔ IsName a t k := by
  constructor
  · intro h
    cases t with
    | name token =>
      rw [nameOf] at h
      split at h
      · rename_i name hname
        exact Except.ok.inj h ▸ .placeholder hname
      · cases h
    | word w =>
      obtain rfl := Except.ok.inj (show Except.ok w = Except.ok k from h)
      exact .bare w
    | _ => cases h
  · rintro (hname | ⟨name⟩)
    · simp only [nameOf, hname]
    · rfl

theorem valueOf_eq_ok_iff {t : Token} : valueOf a (some t) = .ok v ↔ IsValue a t v := by
  constructor
  · intro h
    cases t with
    | value token =>
      rw [valueOf] at h
      split at h
      · rename_i v hv
        exact Except.ok.inj h ▸ .placeholder hv
      · cases h
    | _ => cases h
  · rintro ⟨hv⟩
    simp only [valueOf, hv]

theorem exists_of_parseValue_eq_ok (h : parseValue a ts = .ok (v, rest)) :
    ∃ t, ts = t :: rest ∧ IsValue a t v := by
  obtain ⟨w, hw, heq⟩ := exists_of_map_eq_ok h
  obtain ⟨rfl, rfl⟩ := Prod.mk.inj heq
  cases ts with
  | nil => cases hw
  | cons t rest => exact ⟨t, rfl, valueOf_eq_ok_iff.mp hw⟩

theorem IsValue.parseValue {t : Token} (h : IsValue a t v) (rest : List Token) :
    parseValue a (t :: rest) = .ok (v, rest) := by
  rw [Expression.parseValue, List.head?_cons, valueOf_eq_ok_iff.mpr h]
  rfl

theorem exists_of_parseSteps_eq_ok : ∀ {ts rest : List Token} {path : Path},
    parseSteps a ts = .ok (path, rest) → ∃ us, ts = us ++ rest ∧ IsSteps a us path := by
  intro ts
  fun_induction parseSteps a ts with
  | case1 t ts ih =>
    intro rest path h
    obtain ⟨k, hk, h⟩ := exists_of_bind_eq_ok h
    obtain ⟨⟨steps, rest'⟩, hsteps, h⟩ := exists_of_bind_eq_ok h
    obtain ⟨rfl, rfl⟩ := Prod.mk.inj (Except.ok.inj h)
    obtain ⟨us, rfl, hus⟩ := ih hsteps
    exact ⟨.dot :: t :: us, rfl, .name (nameOf_eq_ok_iff.mp hk) hus⟩
  | case2 => exact nofun
  | case3 i ts ih =>
    intro rest path h
    obtain ⟨⟨steps, rest'⟩, hsteps, h⟩ := exists_of_bind_eq_ok h
    obtain ⟨rfl, rfl⟩ := Prod.mk.inj (Except.ok.inj h)
    obtain ⟨us, rfl, hus⟩ := ih hsteps
    exact ⟨.index i :: us, rfl, .index hus⟩
  | case4 ts =>
    intro rest path h
    obtain ⟨rfl, rfl⟩ := Prod.mk.inj (Except.ok.inj h)
    exact ⟨[], rfl, .nil⟩

theorem IsSteps.parseSteps (h : IsSteps a ts path) (hrest : EndsPath rest) :
    parseSteps a (ts ++ rest) = .ok (path, rest) := by
  induction h with
  | nil => exact parseSteps_of_endsPath a hrest
  | name ht _ ih =>
    simp only [List.cons_append, Expression.parseSteps, nameOf_eq_ok_iff.mpr ht, ih, bind,
      Except.bind]
  | index _ ih => simp only [List.cons_append, Expression.parseSteps, ih, bind, Except.bind]

theorem exists_of_parsePath_eq_ok (h : parsePath a ts = .ok (path, rest)) :
    ∃ us, ts = us ++ rest ∧ IsPath a us path := by
  obtain ⟨k, hk, h⟩ := exists_of_bind_eq_ok h
  obtain ⟨⟨steps, rest'⟩, hsteps, h⟩ := exists_of_bind_eq_ok h
  obtain ⟨rfl, rfl⟩ := Prod.mk.inj (Except.ok.inj h)
  cases ts with
  | nil => cases hk
  | cons t ts =>
    obtain ⟨us, hus, hsteps⟩ := exists_of_parseSteps_eq_ok hsteps
    exact ⟨t :: us, congrArg (t :: ·) hus, .root (nameOf_eq_ok_iff.mp hk) hsteps⟩

theorem IsPath.parsePath (h : IsPath a ts path) (hrest : EndsPath rest) :
    parsePath a (ts ++ rest) = .ok (path, rest) := by
  cases h with
  | root ht hsteps =>
    simp only [List.cons_append, Expression.parsePath, List.head?_cons, List.tail_cons,
      nameOf_eq_ok_iff.mpr ht, hsteps.parseSteps hrest, bind, Except.bind]

theorem IsPath.ne_nil (h : IsPath a ts path) : ts ≠ [] := by
  cases h
  exact List.cons_ne_nil _ _

theorem exists_of_parseMoreValues_eq_ok : ∀ {ts rest : List Token} {vs : List Value},
    parseMoreValues a ts = .ok (vs, rest) → ∃ us, ts = us ++ rest ∧ IsMoreValues a us vs := by
  intro ts
  fun_induction parseMoreValues a ts with
  | case1 t ts ih =>
    intro rest vs h
    obtain ⟨v, hv, h⟩ := exists_of_bind_eq_ok h
    obtain ⟨⟨more, rest'⟩, hmore, h⟩ := exists_of_bind_eq_ok h
    obtain ⟨rfl, rfl⟩ := Prod.mk.inj (Except.ok.inj h)
    obtain ⟨us, rfl, hus⟩ := ih hmore
    exact ⟨.comma :: t :: us, rfl, .cons (valueOf_eq_ok_iff.mp hv) hus⟩
  | case2 => exact nofun
  | case3 ts =>
    intro rest vs h
    obtain ⟨rfl, rfl⟩ := Prod.mk.inj (Except.ok.inj h)
    exact ⟨[], rfl, .nil⟩

theorem IsMoreValues.parseMoreValues {vs : List Value} (h : IsMoreValues a ts vs)
    (rest : List Token) :
    parseMoreValues a (ts ++ .rightParen :: rest) = .ok (vs, .rightParen :: rest) := by
  induction h with
  | nil => simp [Expression.parseMoreValues]
  | cons ht _ ih =>
    simp only [List.cons_append, Expression.parseMoreValues, valueOf_eq_ok_iff.mpr ht, ih, bind,
      Except.bind]

/-! ## Functions and tests -/

theorem exists_of_parseArguments_eq_ok (h : parseArguments a ts = .ok ((path, v), rest)) :
    ∃ us, ts = us ++ rest ∧ IsArguments a us path v := by
  obtain ⟨ts₁, hopen, h⟩ := exists_of_bind_eq_ok h
  obtain ⟨⟨path', ts₂⟩, hpath, h⟩ := exists_of_bind_eq_ok h
  obtain ⟨ts₃, hcomma, h⟩ := exists_of_bind_eq_ok h
  obtain ⟨⟨v', ts₄⟩, hvalue, h⟩ := exists_of_bind_eq_ok h
  obtain ⟨ts₅, hclose, h⟩ := exists_of_bind_eq_ok h
  obtain ⟨hpair, rfl⟩ := Prod.mk.inj (Except.ok.inj h)
  obtain ⟨rfl, rfl⟩ := Prod.mk.inj hpair
  obtain rfl := exists_of_expect_eq_ok hopen
  obtain ⟨us, rfl, hus⟩ := exists_of_parsePath_eq_ok hpath
  obtain rfl := exists_of_expect_eq_ok hcomma
  obtain ⟨t, rfl, ht⟩ := exists_of_parseValue_eq_ok hvalue
  obtain rfl := exists_of_expect_eq_ok hclose
  exact ⟨_, by simp, .pair hus ht⟩

theorem IsArguments.parseArguments (h : IsArguments a ts path v) (rest : List Token) :
    parseArguments a (ts ++ rest) = .ok ((path, v), rest) := by
  cases h with
  | pair hpath ht =>
    simp only [List.cons_append, List.append_assoc, List.nil_append, Expression.parseArguments,
      expect_cons, hpath.parsePath (endsPath_comma _), ht.parseValue, bind, Except.bind]

theorem derives_of_parseTest (h : parseTest a ts = .ok (p, rest))
    (hopens : ∀ t ∈ ts.head?, ¬t.OpensCondition) : ∃ us, ts = us ++ rest ∧ Derives a .unary us p := by
  obtain ⟨⟨path, ts₁⟩, hpath, htest⟩ := exists_of_bind_eq_ok h
  obtain ⟨us, rfl, hus⟩ := exists_of_parsePath_eq_ok hpath
  have hfirst : ∀ t ∈ us.head?, ¬t.OpensCondition := by
    obtain ⟨t, us', rfl⟩ := List.exists_cons_of_ne_nil hus.ne_nil
    exact hopens
  dsimp only at htest
  split at htest
  · rename_i hin
    obtain ⟨w, ts₂, rfl, hw⟩ := exists_of_atKeyword hin
    obtain ⟨ts₃, hopen, h⟩ := exists_of_bind_eq_ok htest
    obtain ⟨⟨v, ts₄⟩, hvalue, h⟩ := exists_of_bind_eq_ok h
    obtain ⟨⟨vs, ts₅⟩, hmore, h⟩ := exists_of_bind_eq_ok h
    obtain ⟨ts₆, hclose, h⟩ := exists_of_bind_eq_ok h
    obtain ⟨rfl, rfl⟩ := Prod.mk.inj (Except.ok.inj h)
    obtain rfl : ts₂ = .leftParen :: ts₃ := exists_of_expect_eq_ok hopen
    obtain ⟨t, rfl, ht⟩ := exists_of_parseValue_eq_ok hvalue
    obtain ⟨vts, rfl, hvts⟩ := exists_of_parseMoreValues_eq_ok hmore
    obtain rfl := exists_of_expect_eq_ok hclose
    exact ⟨_, by simp, .isIn hus hfirst hw ht hvts⟩
  · split at htest
    · rename_i op ts₂
      obtain ⟨⟨v, ts₃⟩, hvalue, h⟩ := exists_of_bind_eq_ok htest
      obtain ⟨rfl, rfl⟩ := Prod.mk.inj (Except.ok.inj h)
      obtain ⟨t, rfl, ht⟩ := exists_of_parseValue_eq_ok hvalue
      exact ⟨_, by simp, .compare hus hfirst ht⟩
    · cases htest

/-! ## What is read is derived -/

mutual

theorem derives_of_parseDisjunction : ∀ {bound : Nat} {ts rest : List Token} {p : Predicate},
    parseDisjunction a bound ts = .ok (p, rest) →
      ∃ us, ts = us ++ rest ∧ Derives a .disjunction us p
  | bound + 1, ts, rest, p, h => by
    rw [parseDisjunction] at h
    obtain ⟨⟨left, ts₁⟩, hleft, hmore⟩ := exists_of_bind_eq_ok h
    obtain ⟨us, rfl, hus⟩ := derives_of_parseConjunction hleft
    obtain ⟨vs, rfl, hvs⟩ := derives_of_parseMoreDisjuncts (.conjunction hus) hmore
    exact ⟨us ++ vs, (List.append_assoc us vs rest).symm, hvs⟩

theorem derives_of_parseMoreDisjuncts : ∀ {bound : Nat} {us ts rest : List Token}
    {left p : Predicate}, Derives a .disjunction us left →
      parseMoreDisjuncts a bound left ts = .ok (p, rest) →
      ∃ vs, ts = vs ++ rest ∧ Derives a .disjunction (us ++ vs) p
  | bound + 1, us, ts, rest, left, p, hus, h => by
    rw [parseMoreDisjuncts] at h
    split at h
    · rename_i hor
      obtain ⟨w, ts₁, rfl, hw⟩ := exists_of_atKeyword hor
      obtain ⟨⟨right, ts₂⟩, hright, hrest⟩ := exists_of_bind_eq_ok h
      obtain ⟨vs, rfl, hvs⟩ := derives_of_parseConjunction hright
      obtain ⟨more, rfl, hmore⟩ := derives_of_parseMoreDisjuncts (.or hus hw hvs) hrest
      exact ⟨w :: (vs ++ more), by simp, by simpa using hmore⟩
    · obtain ⟨rfl, rfl⟩ := Prod.mk.inj (Except.ok.inj h)
      exact ⟨[], rfl, by rwa [List.append_nil]⟩

theorem derives_of_parseConjunction : ∀ {bound : Nat} {ts rest : List Token} {p : Predicate},
    parseConjunction a bound ts = .ok (p, rest) →
      ∃ us, ts = us ++ rest ∧ Derives a .conjunction us p
  | bound + 1, ts, rest, p, h => by
    rw [parseConjunction] at h
    obtain ⟨⟨left, ts₁⟩, hleft, hmore⟩ := exists_of_bind_eq_ok h
    obtain ⟨us, rfl, hus⟩ := derives_of_parseUnary hleft
    obtain ⟨vs, rfl, hvs⟩ := derives_of_parseMoreConjuncts (.unary hus) hmore
    exact ⟨us ++ vs, (List.append_assoc us vs rest).symm, hvs⟩

theorem derives_of_parseMoreConjuncts : ∀ {bound : Nat} {us ts rest : List Token}
    {left p : Predicate}, Derives a .conjunction us left →
      parseMoreConjuncts a bound left ts = .ok (p, rest) →
      ∃ vs, ts = vs ++ rest ∧ Derives a .conjunction (us ++ vs) p
  | bound + 1, us, ts, rest, left, p, hus, h => by
    rw [parseMoreConjuncts] at h
    split at h
    · rename_i hand
      obtain ⟨w, ts₁, rfl, hw⟩ := exists_of_atKeyword hand
      obtain ⟨⟨right, ts₂⟩, hright, hrest⟩ := exists_of_bind_eq_ok h
      obtain ⟨vs, rfl, hvs⟩ := derives_of_parseUnary hright
      obtain ⟨more, rfl, hmore⟩ := derives_of_parseMoreConjuncts (.and hus hw hvs) hrest
      exact ⟨w :: (vs ++ more), by simp, by simpa using hmore⟩
    · obtain ⟨rfl, rfl⟩ := Prod.mk.inj (Except.ok.inj h)
      exact ⟨[], rfl, by rwa [List.append_nil]⟩

theorem derives_of_parseUnary : ∀ {bound : Nat} {ts rest : List Token} {p : Predicate},
    parseUnary a bound ts = .ok (p, rest) → ∃ us, ts = us ++ rest ∧ Derives a .unary us p
  | bound + 1, ts, rest, p, h => by
    rw [parseUnary] at h
    split at h
    · rename_i hnot
      obtain ⟨w, ts₁, rfl, hw⟩ := exists_of_atKeyword hnot
      obtain ⟨⟨inner, ts₂⟩, hinner, h⟩ := exists_of_bind_eq_ok h
      obtain ⟨rfl, rfl⟩ := Prod.mk.inj (Except.ok.inj h)
      obtain ⟨us, rfl, hus⟩ := derives_of_parseUnary hinner
      exact ⟨w :: us, rfl, .not hw hus⟩
    rename_i hnot
    split at h
    · rename_i hparen
      obtain ⟨ts₁, rfl⟩ := List.head?_eq_some_iff.mp hparen
      obtain ⟨⟨inner, ts₂⟩, hinner, h⟩ := exists_of_bind_eq_ok h
      obtain ⟨ts₃, hclose, h⟩ := exists_of_bind_eq_ok h
      obtain ⟨rfl, rfl⟩ := Prod.mk.inj (Except.ok.inj h)
      obtain ⟨us, rfl, hus⟩ := derives_of_parseDisjunction hinner
      obtain rfl := exists_of_expect_eq_ok hclose
      exact ⟨_, by simp, .group hus⟩
    split at h
    · rename_i hbegins
      obtain ⟨w, ts₁, rfl, hw⟩ := exists_of_atKeyword hbegins
      obtain ⟨⟨⟨path, v⟩, ts₂⟩, harguments, h⟩ := exists_of_bind_eq_ok h
      obtain ⟨rfl, rfl⟩ := Prod.mk.inj (Except.ok.inj h)
      obtain ⟨us, rfl, hus⟩ := exists_of_parseArguments_eq_ok harguments
      exact ⟨w :: us, rfl, .beginsWith hw hus⟩
    rename_i hbegins
    split at h
    · rename_i hcontains
      obtain ⟨w, ts₁, rfl, hw⟩ := exists_of_atKeyword hcontains
      obtain ⟨⟨⟨path, v⟩, ts₂⟩, harguments, h⟩ := exists_of_bind_eq_ok h
      obtain ⟨rfl, rfl⟩ := Prod.mk.inj (Except.ok.inj h)
      obtain ⟨us, rfl, hus⟩ := exists_of_parseArguments_eq_ok harguments
      exact ⟨w :: us, rfl, .contains hw hus⟩
    · rename_i hcontains
      refine derives_of_parseTest h fun t ht => ?_
      obtain ⟨ts₁, rfl⟩ := List.head?_eq_some_iff.mp ht
      rintro (hw | hw | hw)
      · exact hnot (atKeyword_cons_iff.mpr hw)
      · exact hbegins (atKeyword_cons_iff.mpr hw)
      · exact hcontains (atKeyword_cons_iff.mpr hw)

end

end Expression

end KeyedQuery
