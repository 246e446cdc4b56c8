import KeyedQuery.Proofs.Dialogue
import KeyedQuery.Proofs.StableSort
import KeyedQuery.Proofs.Store.Keys

/-!
# Pages of a table

The texts of a request say which rows of a table qualify and which of them pass its filter
(`Table.Answers`). Its pages cover the qualifying rows one part after another: a page covers some
rows and leaves the others for the page behind its last key (`Table.Answers.page_step`).
-/

namespace KeyedQuery

namespace Table

variable {t : Table} {q : PageRequest} {rows rest : List Item} {passes : Item → Bool}

/-! ## Answers -/

/-- The rows that qualify for a request, in order, and which of them pass its filter. -/
structure Answers (t : Table) (q : PageRequest) (rows : List Item) (passes : Item → Bool) :
    Prop where
  candidates : t.candidates q = .ok rows
  filter : match q.filter with
    | some text => ∃ p, Predicate.parse q.attributes text = .ok p ∧ ∀ item, p.holds item = passes item
    | none => ∀ item, passes item = true

/-- Rows in the order of a sort attribute, if there is one. -/
def arrange (sort : Option String) (items : List Item) : List Item :=
  match sort with
  | some field => stableSort (sortsBefore field) items
  | none => items

theorem arrange_perm (sort : Option String) (items : List Item) :
    (arrange sort items).Perm items := by
  cases sort with
  | some field => exact stableSort_perm _ _
  | none => exact .refl _

/-- The rows for which its key condition holds qualify for a query. -/
theorem candidates_query {index : Option String} {text : String} {forward : Bool}
    (haccess : q.access = .query index text forward) {sort : Option String}
    (hsort : t.sortAttribute index = .ok sort) {key : Predicate}
    (hkey : Predicate.parse q.attributes text = .ok key) :
    t.candidates q = .ok
      (if forward then arrange sort (t.items.filter key.holds)
        else (arrange sort (t.items.filter key.holds)).reverse) := by
  unfold candidates
  rw [haccess]
  simp only [hsort, condition, hkey, Except.mapError, bind, Except.bind]
  rfl

/-- The rows that qualify for a request are rows of the table, put in some order. -/
theorem exists_perm_of_candidates (h : t.candidates q = .ok rows) :
    ∃ test, rows.Perm (t.items.filter test) := by
  unfold candidates at h
  split at h
  · obtain rfl := Except.ok.inj h
    exact ⟨fun _ => true, by rw [List.filter_true]⟩
  · obtain ⟨sort, -, h⟩ := exists_of_bind_eq_ok h
    obtain ⟨key, -, h⟩ := exists_of_bind_eq_ok h
    obtain rfl := Except.ok.inj h
    refine ⟨key.holds, ?_⟩
    split
    · exact arrange_perm sort _
    · exact (List.reverse_perm _).trans (arrange_perm sort _)

theorem Answers.resume (h : t.Answers q rows passes) (limit : Option Nat) (start : Option Item) :
    t.Answers { q with limit, start } rows passes :=
  ⟨h.candidates, h.filter⟩

/-- The store takes the texts of a request, or it refuses them on every page. -/
theorem answers_or_error (t : Table) (q : PageRequest) : (∃ rows passes, t.Answers q rows passes) ∨
    ∃ fault, ∀ pageSize limit start countOnly,
      t.page pageSize { q with limit, start, countOnly } = .error fault := by
  cases hcandidates : t.candidates q with
  | error fault =>
    refine .inr ⟨fault, fun pageSize limit start countOnly => ?_⟩
    have hresumed : t.candidates { q with limit, start, countOnly } = .error fault := hcandidates
    rw [page, hresumed]
    rfl
  | ok rows =>
    by_cases hnone : q.filter = none
    · exact .inl ⟨rows, fun _ => true, hcandidates, by rw [hnone]; exact fun _ => rfl⟩
    · obtain ⟨text, hfilter⟩ := Option.ne_none_iff_exists'.mp hnone
      cases hparse : Predicate.parse q.attributes text with
      | ok p =>
        exact .inl ⟨rows, fun item => p.holds item, hcandidates, by
          rw [hfilter]; exact ⟨p, hparse, fun _ => rfl⟩⟩
      | error fault =>
        refine .inr ⟨fault.toStoreFault, fun pageSize limit start countOnly => ?_⟩
        have hresumed : t.candidates { q with limit, start, countOnly } = .ok rows := hcandidates
        rw [page, hresumed]
        simp only [hfilter, condition, hparse, Except.mapError, Except.map, bind, Except.bind]

theorem Answers.page_eq (h : t.Answers q rows passes) (pageSize : Option Nat) :
    t.page pageSize q = .ok
      (let remaining := t.behind q.start rows
       let covered := takeAtMost (budget q.limit pageSize) remaining
       { items := if q.countOnly then [] else covered.filter passes
         count := (covered.filter passes).length
         last := if covered.length < remaining.length then covered.getLast?.map t.keyOf
           else none }) := by
  have hfilter := h.filter
  unfold page
  rw [h.candidates]
  cases hq : q.filter with
  | none =>
    rw [hq] at hfilter
    obtain rfl : passes = fun _ => true := funext hfilter
    simp [bind, Except.bind]
  | some text =>
    rw [hq] at hfilter
    obtain ⟨p, hp, hholds⟩ := hfilter
    obtain rfl : passes = fun item => p.holds item := funext fun item => (hholds item).symm
    simp [bind, Except.bind, condition, hp, Except.mapError, Except.map]

/-- Without a filter, a limited page shows as many rows as its limit, or it is the unlimited page. -/
theorem Answers.page_limited (h : t.Answers q rows passes) (hfilter : q.filter = none)
    (hcount : q.countOnly = false) (pageSize : Option Nat) (n : Nat) :
    ∃ page, t.page pageSize { q with limit := some n } = .ok page ∧
      (n ≤ page.items.length ∨ t.page pageSize { q with limit := none } = .ok page) := by
  have hpasses : ∀ item, passes item = true := by simpa [hfilter] using h.filter
  have hall : ∀ items : List Item, items.filter passes = items := fun items =>
    List.filter_eq_self.mpr fun item _ => hpasses item
  refine ⟨_, (h.resume (some n) q.start).page_eq pageSize, ?_⟩
  rw [(h.resume none q.start).page_eq pageSize]
  simp only [hcount, Bool.false_eq_true, if_false, hall]
  rcases Nat.lt_or_ge (takeAtMost (budget none pageSize) (t.behind q.start rows)).length n with
    hlt | hge
  · refine .inr ?_
    have hcovered : takeAtMost (budget (some n) pageSize) (t.behind q.start rows) =
        takeAtMost (budget none pageSize) (t.behind q.start rows) := by
      cases pageSize with
      | none => exact List.take_of_length_le (Nat.le_of_lt hlt)
      | some size =>
        simp only [budget, takeAtMost, List.length_take] at hlt ⊢
        rw [List.take_eq_take_iff]
        omega
    rw [hcovered]
  · refine .inl ?_
    cases pageSize <;> simp only [budget, takeAtMost, List.length_take] at hge ⊢ <;> omega

/-! ## Keys behind which pages start -/

/-- No two rows have the same key attributes with the same values. -/
def KeysApart (t : Table) (rows : List Item) : Prop :=
  rows.Pairwise fun a b => Value.sameFields (t.keyOf a) (t.keyOf b) = false

instance (t : Table) (rows : List Item) : Decidable (t.KeysApart rows) :=
  inferInstanceAs (Decidable
    (rows.Pairwise fun a b => Value.sameFields (t.keyOf a) (t.keyOf b) = false))

theorem WellKeyed.keysApart (h : t.WellKeyed) : t.KeysApart t.items :=
  h.apart.imp fun hab => Bool.eq_false_iff.mpr fun hsame =>
    Bool.eq_false_iff.mp hab (sameKey_of_sameFields hsame)

theorem KeysApart.of_perm (h : t.KeysApart t.items) {test : Item → Bool}
    (hperm : rows.Perm (t.items.filter test)) : t.KeysApart rows := by
  refine (hperm.pairwise_iff fun {a b} hab => ?_).mpr (h.sublist List.filter_sublist)
  exact Bool.eq_false_iff.mpr fun hba => Bool.eq_false_iff.mp hab (Value.sameFields_symm hba)

theorem behind_keyOf {seen : List Item} {row : Item} (h : t.KeysApart (seen ++ row :: rest)) :
    t.behind (some (t.keyOf row)) (seen ++ row :: rest) = rest := by
  have hseen : ∀ x ∈ seen, (!Value.sameFields (t.keyOf x) (t.keyOf (t.keyOf row))) = true := by
    intro x hx
    rw [keyOf_keyOf, Bool.not_eq_true']
    exact (List.pairwise_append.mp h).2.2 x hx row List.mem_cons_self
  have hrow : (!Value.sameFields (t.keyOf row) (t.keyOf (t.keyOf row))) = false := by
    rw [keyOf_keyOf, Value.sameFields_refl]
    rfl
  rw [behind, List.dropWhile_append_of_pos hseen, List.dropWhile_cons, hrow]
  rfl

/-- A page covers all rows, or some and not the last one. -/
theorem takeAtMost_eq_or {budget : Option Nat} (hbudget : budget ≠ some 0) (rows : List Item) :
    takeAtMost budget rows = rows ∨ ∃ before row after, takeAtMost budget rows = before ++ [row] ∧
      rows = before ++ row :: after ∧ after ≠ [] := by
  cases budget with
  | none => exact .inl rfl
  | some n =>
    rcases Nat.lt_or_ge n rows.length with hlt | hge
    · have hpos : 0 < n := Nat.pos_of_ne_zero fun hzero => hbudget (by rw [hzero])
      have hne : rows.take n ≠ [] := by
        rw [← List.length_pos_iff, List.length_take]
        omega
      obtain ⟨before, row, hcovered⟩ : ∃ before row, rows.take n = before ++ [row] :=
        ⟨_, _, (List.dropLast_append_getLast hne).symm⟩
      refine .inr ⟨before, row, rows.drop n, hcovered, ?_, ?_⟩
      · rw [List.append_cons, ← hcovered, List.take_append_drop]
      · rw [← List.length_pos_iff, List.length_drop]
        omega
    · exact .inl (List.take_of_length_le hge)

theorem budget_ne_zero {limit pageSize : Option Nat} (hlimit : limit ≠ some 0)
    (hpageSize : pageSize ≠ some 0) : budget limit pageSize ≠ some 0 := by
  cases limit <;> cases pageSize <;> simp_all [budget]

/-- A page covers as many of the rows that are left as it may look at. Either these were all, or it
ends with the key behind which the others start. -/
theorem Answers.page_step (h : t.Answers q rows passes) (hapart : t.KeysApart rows)
    {pageSize : Option Nat} {seen : List Item} (hrows : rows = seen ++ rest)
    (hstart : t.behind q.start rows = rest) (hlimit : q.limit ≠ some 0)
    (hpageSize : pageSize ≠ some 0) :
    ∃ covered others last, rest = covered ++ others ∧
      covered = takeAtMost (budget q.limit pageSize) rest ∧
      t.page pageSize q = .ok ⟨if q.countOnly then [] else covered.filter passes,
        (covered.filter passes).length, last⟩ ∧
      (last = none → others = []) ∧
      (∀ key, last = some key → covered ≠ [] ∧ others ≠ [] ∧
        t.behind (some key) rows = others) := by
  have hpage := h.page_eq pageSize
  simp only [hstart] at hpage
  rcases takeAtMost_eq_or (budget_ne_zero hlimit hpageSize) rest with
    hall | ⟨before, row, others, hcovered, hsplit, hothers⟩
  · rw [hall, if_neg (Nat.lt_irrefl _)] at hpage
    refine ⟨rest, [], none, (List.append_nil rest).symm, hall.symm, hpage, fun _ => rfl, ?_⟩
    exact fun key hkey => by cases hkey
  · have hcut : (before ++ [row]).length < rest.length := by
      have hpos := List.length_pos_of_ne_nil hothers
      simp only [hsplit, List.length_append, List.length_cons, List.length_nil]
      omega
    rw [hcovered, if_pos hcut, List.getLast?_concat] at hpage
    refine ⟨before ++ [row], others, some (t.keyOf row), by simp [hsplit], hcovered.symm, hpage,
      (fun hnone => by cases hnone), fun key hkey => ?_⟩
    obtain rfl := Option.some.inj hkey
    have hall : rows = (seen ++ before) ++ row :: others := by
      rw [List.append_assoc, ← hsplit, hrows]
    rw [hall] at hapart ⊢
    exact ⟨by simp, hothers, behind_keyOf hapart⟩

end Table

end KeyedQuery
