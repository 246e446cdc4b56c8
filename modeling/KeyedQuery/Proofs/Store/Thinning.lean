import KeyedQuery.Proofs.Store.Pages
import KeyedQuery.Proofs.Store.Sorting
import KeyedQuery.Proofs.Store.Unique

/-!
# Pages of a table that loses rows

A walk over the pages of a table starts each page behind the last row of the one before. Rows may be dropped
in between. `Table.only` is the table with the rows that are kept. Its pages go on where the walk has come
to, with the rows that are left (`Table.Answers.page_only`), if the row is kept behind which they start.
If it is not, there is nothing behind it (`Table.Answers.page_only_of_gone`).

Dropping rows must not change the order of the others. It does not if the order puts them in order up to
ties (`Table.Steady`).
-/

namespace KeyedQuery

namespace Table

variable {t : Table} {q : PageRequest} {rows seen rest : List Item} {passes : Item → Bool} {row : Item}

/-- The table with the rows that are kept. -/
def only (t : Table) (keep : Item → Bool) : Table :=
  { t with items := t.items.filter keep }

theorem only_only (t : Table) (p q : Item → Bool) :
    (t.only p).only q = t.only fun row => q row && p row := by
  rw [only, only, only, List.filter_filter]

theorem keyOf_only (t : Table) (keep : Item → Bool) : (t.only keep).keyOf = t.keyOf :=
  rfl

theorem behind_only (t : Table) (keep : Item → Bool) : (t.only keep).behind = t.behind :=
  rfl

/-- Dropping a row by a key keeps the other rows. -/
theorem exists_remove_eq_only (h : t.items.Nodup) (key : Item) :
    ∃ keep, t.remove key = t.only keep := by
  have hall : t = t.only fun _ => true := by rw [only, List.filter_true]
  unfold remove
  cases hposition : t.position key with
  | none => exact ⟨_, hall⟩
  | some i =>
    obtain ⟨before, old, after, hitems, rfl, -⟩ := exists_of_position hposition
    have hold : old ∉ before := fun hmem => by
      rw [hitems] at h
      exact (List.nodup_append.mp h).2.2 old hmem old List.mem_cons_self rfl
    refine ⟨fun row => row != old, ?_⟩
    dsimp only
    rw [only, ← h.erase_eq_filter, hitems, List.erase_append_right _ hold, List.erase_cons_head,
      List.eraseIdx_append_of_length_le (Nat.le_refl _), Nat.sub_self]
    rfl

/-! ## Rows that qualify -/

/-- What orders the rows of a request puts them in order up to ties. -/
def Steady (t : Table) (q : PageRequest) (rows : List Item) : Prop :=
  ∀ index text forward field, q.access = .query index text forward →
    t.sortAttribute index = .ok (some field) → OrdersUpToTies (sortsBefore field) rows

theorem steady_of_scan (h : q.access = .scan) : t.Steady q rows := by
  intro index text forward field haccess
  rw [h] at haccess
  cases haccess

/-- Rows are in order up to ties if the values of the sort attribute are of one kind. -/
theorem steady_of_kind (kind : Value.Kind) {index : Option String} {text field : String} {forward : Bool}
    (haccess : q.access = .query index text forward) (hsort : t.sortAttribute index = .ok (some field))
    (hkind : ∀ row ∈ rows, (Fields.get? row field).bind Value.kind? = some kind) :
    t.Steady q rows := by
  intro index' text' forward' field' haccess' hsort'
  obtain ⟨rfl, -, -⟩ := Access.query.inj (haccess.symm.trans haccess')
  obtain rfl := Option.some.inj (Except.ok.inj (hsort.symm.trans hsort'))
  exact ordersUpToTies_sortsBefore hkind

theorem arrange_filter {sort : Option String} (h : ∀ field, sort = some field →
    OrdersUpToTies (sortsBefore field) rows) (keep : Item → Bool) :
    arrange sort (rows.filter keep) = (arrange sort rows).filter keep := by
  cases sort with
  | none => rfl
  | some field => exact (h field rfl).stableSort_filter keep

/-- Of the rows that are kept the same qualify, in the same order. -/
theorem Answers.only (h : t.Answers q rows passes) (hsteady : t.Steady q rows) (keep : Item → Bool) :
    (t.only keep).Answers q (rows.filter keep) passes := by
  refine ⟨?_, h.filter⟩
  have hcandidates := h.candidates
  cases haccess : q.access with
  | scan =>
    simp only [Table.candidates, haccess] at hcandidates ⊢
    obtain rfl := Except.ok.inj hcandidates
    rfl
  | query index text forward =>
    simp only [Table.candidates, haccess] at hcandidates
    obtain ⟨sort, hsort, hcandidates⟩ := exists_of_bind_eq_ok hcandidates
    obtain ⟨key, hkey, -⟩ := exists_of_bind_eq_ok hcandidates
    have hkey := of_mapError_eq_ok hkey
    have hrows := Except.ok.inj (h.candidates.symm.trans (candidates_query haccess hsort hkey))
    have hperm : rows.Perm (t.items.filter key.holds) := by
      rw [hrows]
      split
      · exact arrange_perm sort _
      · exact (List.reverse_perm _).trans (arrange_perm sort _)
    rw [candidates_query (t := t.only keep) haccess hsort hkey]
    have harrange : arrange sort ((t.only keep).items.filter key.holds) =
        (arrange sort (t.items.filter key.holds)).filter keep := by
      rw [← arrange_filter fun field hfield => ?_]
      · exact congrArg _ (List.filter_comm _ _ _)
      · exact (hsteady index text forward field haccess (hfield ▸ hsort)).of_subset hperm.symm.subset
    rw [harrange, hrows]
    cases forward
    · exact congrArg Except.ok List.filter_reverse.symm
    · rfl

/-! ## Pages -/

theorem behind_of_forall {key : Item}
    (h : ∀ row ∈ rows, Value.sameFields (t.keyOf row) (t.keyOf key) = false) :
    t.behind (some key) rows = [] := by
  have hall : (rows.dropWhile fun row => !Value.sameFields (t.keyOf row) (t.keyOf key)) = [] := by
    rw [← List.append_nil rows, List.dropWhile_append_of_pos fun row hrow => by simp [h row hrow]]
    rfl
  rw [behind, hall]
  rfl

theorem behind_getLast? (h : t.KeysApart (seen ++ rest)) :
    t.behind (seen.getLast?.map t.keyOf) (seen ++ rest) = rest := by
  rcases List.eq_nil_or_concat seen with rfl | ⟨before, row, rfl⟩
  · rfl
  · rw [List.concat_eq_append, List.append_assoc] at h ⊢
    rw [List.getLast?_concat]
    exact behind_keyOf h

theorem getLast?_filter_of_kept {keep : Item → Bool}
    (h : ∀ row, seen.getLast? = some row → keep row = true) :
    (seen.filter keep).getLast? = seen.getLast? := by
  rcases List.eq_nil_or_concat seen with rfl | ⟨before, row, rfl⟩
  · rfl
  · rw [List.concat_eq_append] at h ⊢
    rw [List.getLast?_concat] at h
    rw [List.filter_append, List.filter_cons_of_pos (h row rfl), List.filter_nil,
      List.getLast?_concat, List.getLast?_concat]

theorem KeysApart.ne_of_mem (h : t.KeysApart rows) {a b : Item} (ha : a ∈ rows) (hb : b ∈ rows)
    (hne : a ≠ b) : Value.sameFields (t.keyOf a) (t.keyOf b) = false := by
  have hsymm : Std.Symm fun a b => Value.sameFields (t.keyOf a) (t.keyOf b) = false :=
    ⟨fun a b hab => Bool.eq_false_iff.mpr fun hba =>
      Bool.eq_false_iff.mp hab (Value.sameFields_symm hba)⟩
  exact List.Pairwise.forall h ha hb hne

theorem KeysApart.nodup (h : t.KeysApart rows) : rows.Nodup :=
  h.imp fun {a b} hab heq => by
    rw [heq, Value.sameFields_refl] at hab
    cases hab

/-- Behind a row that is gone there is nothing. -/
theorem Answers.page_only_of_gone (h : t.Answers q rows passes) (hapart : t.KeysApart rows)
    (hsteady : t.Steady q rows) {keep : Item → Bool} (hrow : row ∈ rows) (hgone : keep row = false)
    (hstart : q.start = some (t.keyOf row)) (pageSize : Option Nat) :
    (t.only keep).page pageSize q = .ok ⟨[], 0, none⟩ := by
  have hbehind : (t.only keep).behind q.start (rows.filter keep) = [] := by
    rw [hstart, behind_only]
    refine behind_of_forall fun other hother => ?_
    obtain ⟨hmem, hkeep⟩ := List.mem_filter.mp hother
    rw [keyOf_keyOf]
    exact hapart.ne_of_mem hmem hrow fun heq => by simp [← heq, hkeep] at hgone
  have hnone : ∀ budget : Option Nat, takeAtMost budget ([] : List Item) = [] := fun budget => by
    cases budget <;> simp [takeAtMost]
  rw [(h.only hsteady keep).page_eq pageSize, hbehind]
  simp [hnone]

/-- The first part of the rows that are kept belongs to a first part of all rows, with the same end. -/
theorem exists_append_of_filter_eq {keep : Item → Bool} {before after : List Item}
    (h : rest.filter keep = before ++ row :: after) : ∃ start others,
      rest = start ++ row :: others ∧ (start ++ [row]).filter keep = before ++ [row] ∧
        others.filter keep = after := by
  obtain ⟨front, back, rfl, rfl, hback⟩ := List.filter_eq_append_iff.mp h
  obtain ⟨skipped, others, rfl, hskipped, hrow, rfl⟩ := List.filter_eq_cons_iff.mp hback
  refine ⟨front ++ skipped, others, by simp, ?_, rfl⟩
  rw [List.filter_append, List.filter_append, List.filter_eq_nil_iff.mpr hskipped,
    List.filter_cons_of_pos hrow]
  simp

/-- A page shows matching rows of a first part of the rows that are left. Either these were all, or the next
page starts behind the last row of that part. -/
structure Advances (t : Table) (seen rest : List Item) (matching : Item → Bool) (page : Page)
    (covered others : List Item) : Prop where
  rest_eq : rest = covered ++ others
  items_eq : page.items = covered.filter matching
  others_eq : page.last = none → others = []
  last_eq : ∀ key, page.last = some key →
    covered ≠ [] ∧ others ≠ [] ∧ some key = (seen ++ covered).getLast?.map t.keyOf

/-- Behind a row that is kept a page goes on with the rows that are left and kept. -/
theorem Answers.page_only (h : t.Answers q rows passes) (hapart : t.KeysApart rows)
    (hsteady : t.Steady q rows) {keep : Item → Bool} (hrows : rows = seen ++ rest)
    (hstart : q.start = seen.getLast?.map t.keyOf)
    (hkept : ∀ row, seen.getLast? = some row → keep row = true) (hcount : q.countOnly = false)
    (hlimit : q.limit ≠ some 0) {pageSize : Option Nat} (hpageSize : pageSize ≠ some 0) :
    ∃ page covered others, (t.only keep).page pageSize q = .ok page ∧
      t.Advances seen rest (fun row => passes row && keep row) page covered others := by
  have hbehind : t.behind q.start (rows.filter keep) = rest.filter keep := by
    rw [hstart, ← getLast?_filter_of_kept hkept, hrows, List.filter_append]
    refine behind_getLast? ?_
    rw [← List.filter_append, ← hrows]
    exact hapart.filter keep
  have hpage := (h.only hsteady keep).page_eq pageSize
  simp only [behind_only, keyOf_only, hbehind, hcount, Bool.false_eq_true, if_false] at hpage
  rcases takeAtMost_eq_or (budget_ne_zero hlimit hpageSize) (rest.filter keep) with
    hall | ⟨before, row, after, hcovered, hsplit, hafter⟩
  · rw [hall, if_neg (Nat.lt_irrefl _)] at hpage
    refine ⟨_, rest, [], hpage, (List.append_nil rest).symm, List.filter_filter, fun _ => rfl, ?_⟩
    exact fun key hkey => by cases hkey
  · obtain ⟨start, others, rfl, hfront, rfl⟩ := exists_append_of_filter_eq hsplit
    have hcut : (before ++ [row]).length < ((start ++ row :: others).filter keep).length := by
      have hpos := List.length_pos_of_ne_nil hafter
      simp only [hsplit, List.length_append, List.length_cons, List.length_nil]
      omega
    rw [hcovered, if_pos hcut, List.getLast?_concat, ← hfront] at hpage
    refine ⟨_, start ++ [row], others, hpage, ⟨by simp, List.filter_filter, ?_, ?_⟩⟩
    · exact fun hnone => by cases hnone
    · refine fun key hkey => ⟨by simp, ?_, ?_⟩
      · rintro rfl
        exact hafter rfl
      · rw [← List.append_assoc, List.getLast?_concat]
        exact hkey.symm

end Table

end KeyedQuery
