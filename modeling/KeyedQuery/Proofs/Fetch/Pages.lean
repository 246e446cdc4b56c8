import KeyedQuery.Fetch.Pages
import KeyedQuery.Proofs.Store.Memory
import KeyedQuery.Proofs.Store.Pages

/-!
# Collecting pages

Following the pages of a request collects every qualifying row that passes its filter, once and in
order, up to the limit (`FetchPolicy.ensures_collect`). In a calm store it fails only if there may be
too few pages. A page looks at no more rows than are missing, whether they pass the filter or not, so
how many pages suffice depends on where the rows are that pass it (`pagesSuffice`). As many pages as
there are qualifying rows always do (`pagesSuffice_of_length_le`).
-/

namespace KeyedQuery

/-! ## Pages that suffice -/

/-- So many pages suffice to collect the matching rows that are missing, or all there are. -/
def pagesSuffice (pageSize : Option Nat) (passes : Item → Bool) :
    Nat → Option Nat → List Item → Bool
  | 0, missing, _ => missing = some 0
  | pages + 1, missing, rows =>
    let covered := takeAtMost (Table.budget missing pageSize) rows
    missing = some 0 || rows.length ≤ covered.length ||
      pagesSuffice pageSize passes pages (missing.map fun n => n - (covered.filter passes).length)
        (rows.drop covered.length)

section

variable {pageSize : Option Nat} {passes : Item → Bool}

@[simp]
theorem pagesSuffice_zero (pages : Nat) (rows : List Item) :
    pagesSuffice pageSize passes pages (some 0) rows = true := by
  cases pages <;> simp [pagesSuffice]

theorem pagesSuffice_append {missing : Option Nat} {covered others : List Item}
    (hmissing : missing ≠ some 0)
    (hcovered : covered = takeAtMost (Table.budget missing pageSize) (covered ++ others))
    (pages : Nat) : pagesSuffice pageSize passes (pages + 1) missing (covered ++ others) =
      (others.isEmpty || pagesSuffice pageSize passes pages
        (missing.map fun n => n - (covered.filter passes).length) others) := by
  rw [pagesSuffice, ← hcovered, List.drop_left, List.length_append]
  cases others <;> simp [hmissing]

/-- As many pages as there are rows suffice, since every page but the last covers a row. -/
theorem pagesSuffice_of_length_le (hpageSize : pageSize ≠ some 0) :
    ∀ {further : Nat} {missing : Option Nat} {rows : List Item}, rows.length ≤ further + 1 →
      pagesSuffice pageSize passes (further + 1) missing rows = true := by
  intro further missing rows hlength
  by_cases hmissing : missing = some 0
  · rw [hmissing, pagesSuffice_zero]
  have hbudget := Table.budget_ne_zero hmissing hpageSize
  rw [pagesSuffice]
  simp only [Bool.or_eq_true, decide_eq_true_eq]
  rcases Table.takeAtMost_eq_or hbudget rows with hall | ⟨before, row, after, hcovered, hsplit, hafter⟩
  · exact .inl (.inr (by rw [hall]))
  · refine .inr ?_
    have hpos := List.length_pos_of_ne_nil hafter
    have hrows : rows.length = (before ++ [row]).length + after.length := by
      rw [hsplit, ← List.length_append, ← List.append_cons]
    have hcut : 0 < (before ++ [row]).length := by simp
    rw [hcovered]
    cases further with
    | zero => omega
    | succ further =>
      exact pagesSuffice_of_length_le hpageSize (by rw [List.length_drop]; omega)

end

namespace FetchPolicy

variable {tables : Fields Table} {pageSize : Option Nat} {calm : Prop} {t : Table}
  {rows : List Item} {passes : Item → Bool}

/-- The faults of a fetch that has some rows before it: any in a store that is not calm, and that
of used up pages if there are more rows than pages. -/
def Tolerates (policy : FetchPolicy) (calm : Prop) (further rows : Nat) (fault : Fault) : Prop :=
  calm → fault = policy.exhausted ∧ further + 1 < rows

/-- The faults of a fetch whose pages may suffice: any in a store that is not calm, and that of used
up pages if they do not. -/
def Exhausts (policy : FetchPolicy) (calm : Prop) (enough : Bool) (fault : Fault) : Prop :=
  calm → fault = policy.exhausted ∧ enough = false

theorem Exhausts.tolerates {policy : FetchPolicy} {further : Nat} {missing : Option Nat}
    {fault : Fault} (hpageSize : pageSize ≠ some 0)
    (h : policy.Exhausts calm (pagesSuffice pageSize passes (further + 1) missing rows) fault) :
    policy.Tolerates calm further rows.length fault := by
  intro hcalm
  obtain ⟨hfault, henough⟩ := h hcalm
  refine ⟨hfault, Nat.lt_of_not_le fun hle => ?_⟩
  rw [pagesSuffice_of_length_le hpageSize hle] at henough
  cases henough

theorem forMissing_eq {q : PageRequest} (hlimit : q.limit = none) (limit : Option Nat) (n : Nat) :
    q.forMissing limit n = { q with limit := limit.map fun l => l - n } := by
  cases limit with
  | none =>
    cases q
    simp_all [PageRequest.forMissing]
  | some l => rfl

theorem takeAtMost_of_reached {limit : Option Nat} {items more : List Item}
    (hreached : reached limit items = true) : takeAtMost limit (items ++ more) =
      takeAtMost limit items := by
  cases limit with
  | none => cases hreached
  | some n =>
    have hle : n ≤ items.length := by simpa [reached] using hreached
    simp [takeAtMost, List.take_append_of_le_length hle]

theorem takeAtMost_of_not_reached {limit : Option Nat} {items : List Item}
    (hreached : reached limit items = false) : takeAtMost limit items = items := by
  cases limit with
  | none => rfl
  | some n =>
    have hlt : items.length < n := by simpa [reached] using hreached
    exact List.take_of_length_le (Nat.le_of_lt hlt)

theorem missing_eq_zero_iff {limit : Option Nat} {items : List Item} :
    (limit.map fun n => n - items.length) = some 0 ↔ reached limit items = true := by
  cases limit with
  | none => simp [reached]
  | some n => simp [reached, Nat.sub_eq_zero_iff_le]

/-- After a page the collection ends, or it goes on with the rows that the page has left. -/
theorem ensures_goOn {limit : Option Nat} {items others : List Item} {last : Option Item}
    {more : Item → Run (List Item)} {enough : Bool} {E : Fault → Prop}
    (hfull : reached limit items = true → enough = true)
    (hlast : last = none → others = [] ∧ enough = true)
    (hmore : ∀ key, last = some key → reached limit items = false →
      Run.Ensures Memory.receive (Memory.Holds tables pageSize calm) (more key)
        (fun result => result = takeAtMost limit (items ++ others.filter passes) ∧ enough = true)
        E) :
    Run.Ensures Memory.receive (Memory.Holds tables pageSize calm) (goOn limit items last more)
      (fun result => result = takeAtMost limit (items ++ others.filter passes) ∧ enough = true)
      E := by
  unfold goOn
  split
  · rename_i hreached
    exact .pure ⟨(takeAtMost_of_reached hreached).symm, hfull hreached⟩
  · rename_i hopen
    cases last with
    | none =>
      obtain ⟨rfl, henough⟩ := hlast rfl
      refine .pure ⟨?_, henough⟩
      rw [List.filter_nil, List.append_nil, takeAtMost_of_not_reached (by simpa using hopen)]
    | some key => exact hmore key rfl (by simpa using hopen)

/-- The rows that are left are collected behind those that have been collected. The induction is on
the pages that may follow. -/
theorem ensures_collectFrom (policy : FetchPolicy) (limit : Option Nat)
    (hpageSize : pageSize ≠ some 0) (hapart : t.KeysApart rows) :
    ∀ (further : Nat) {q : PageRequest} (seen : List Item) {rest collected : List Item},
      Fields.get? tables q.table = some t → t.Answers q rows passes → q.countOnly = false →
      q.limit = none → rows = seen ++ rest → t.behind q.start rows = rest →
      reached limit collected = false →
      Run.Ensures Memory.receive (Memory.Holds tables pageSize calm)
        (policy.collectFrom limit collected q further)
        (fun items => items = takeAtMost limit (collected ++ rest.filter passes) ∧
          pagesSuffice pageSize passes (further + 1) (limit.map fun n => n - collected.length)
            rest = true)
        (policy.Exhausts calm (pagesSuffice pageSize passes (further + 1)
          (limit.map fun n => n - collected.length) rest)) := by
  intro further q seen rest collected ht hanswers hcount hlimit hrows hstart hreached
  have hmissing : (limit.map fun n => n - collected.length) ≠ some 0 := fun hzero => by
    rw [missing_eq_zero_iff.mp hzero] at hreached
    cases hreached
  obtain ⟨covered, others, last, rfl, hcovered, hpage, hlast, hmore⟩ :=
    (hanswers.resume (limit.map fun n => n - collected.length) q.start).page_step hapart
      hrows hstart hmissing hpageSize
  rw [if_neg (by simp [hcount])] at hpage
  have hleft : (limit.map fun n => n - collected.length).map
      (fun n => n - (covered.filter passes).length) =
      limit.map fun n => n - (collected ++ covered.filter passes).length := by
    cases limit <;> simp [Nat.sub_sub]
  rw [List.filter_append, ← List.append_assoc, pagesSuffice_append hmissing hcovered, hleft]
  have hfull : ∀ pages, reached limit (collected ++ covered.filter passes) = true →
      (others.isEmpty || pagesSuffice pageSize passes pages
        (limit.map fun n => n - (collected ++ covered.filter passes).length) others) = true :=
    fun pages hreached => by rw [missing_eq_zero_iff.mpr hreached, pagesSuffice_zero, Bool.or_true]
  have hend : ∀ pages, last = none → others = [] ∧ (others.isEmpty || pagesSuffice pageSize passes
      pages (limit.map fun n => n - (collected ++ covered.filter passes).length) others) = true :=
    fun pages hnone => ⟨hlast hnone, by simp [hlast hnone]⟩
  have hrequest := fun (E : Fault → Prop) (hE : ¬calm → ∀ fault, E fault) =>
    Run.Ensures.request policy.retry (Memory.serves_page
      (q := { q with limit := limit.map fun n => n - collected.length, start := q.start })
      hE ht hpage)
  cases further with
  | zero =>
    rw [collectFrom, forMissing_eq hlimit]
    refine (hrequest _ fun hcalm _ h => absurd h hcalm).bind fun page hpage => ?_
    subst hpage
    refine ensures_goOn (hfull 0) (hend 0) fun key hkey hopen => .throw fun _ => ⟨rfl, ?_⟩
    obtain ⟨-, hothers, -⟩ := hmore key hkey
    rw [pagesSuffice, List.isEmpty_eq_false_iff.mpr hothers, Bool.false_or, decide_eq_false_iff_not,
      missing_eq_zero_iff, hopen]
    exact Bool.false_ne_true
  | succ further =>
    rw [collectFrom, forMissing_eq hlimit]
    refine (hrequest _ fun hcalm _ h => absurd h hcalm).bind fun page hpage => ?_
    subst hpage
    refine ensures_goOn (hfull _) (hend _) fun key hkey hopen => ?_
    obtain ⟨-, hothers, hbehind⟩ := hmore key hkey
    rw [List.isEmpty_eq_false_iff.mpr hothers, Bool.false_or]
    exact ensures_collectFrom policy limit hpageSize hapart further (q := q.resumeFrom key)
      (seen ++ covered) ht (hanswers.resume q.limit (some key)) hcount hlimit
      (by simp [hrows]) hbehind hopen

/-- A request collects the qualifying rows that pass its filter, up to the limit, if the pages that
it may take suffice. -/
theorem ensures_collect (policy : FetchPolicy) (limit : Option Nat) (hpageSize : pageSize ≠ some 0)
    (hapart : t.KeysApart rows) {q : PageRequest} (ht : Fields.get? tables q.table = some t)
    (hanswers : t.Answers q rows passes) (hcount : q.countOnly = false) (hlimit : q.limit = none)
    (hstart : q.start = none) :
    Run.Ensures Memory.receive (Memory.Holds tables pageSize calm) (policy.collect q limit)
      (fun items => items = takeAtMost limit (rows.filter passes) ∧
        pagesSuffice pageSize passes (policy.furtherPages + 1) limit rows = true)
      (policy.Exhausts calm (pagesSuffice pageSize passes (policy.furtherPages + 1) limit rows)) := by
  rw [collect]
  split
  · rename_i hzero
    rw [hzero]
    exact .pure ⟨by simp [takeAtMost], pagesSuffice_zero _ _⟩
  · rename_i hpositive
    have hopen : reached limit [] = false := by
      rw [← Bool.not_eq_true, ← missing_eq_zero_iff]
      simpa using hpositive
    simpa using policy.ensures_collectFrom limit hpageSize hapart policy.furtherPages [] ht hanswers
      hcount hlimit rfl (by rw [hstart]; rfl) hopen

end FetchPolicy

end KeyedQuery
