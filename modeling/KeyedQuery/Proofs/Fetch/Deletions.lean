import KeyedQuery.Fetch.Pages
import KeyedQuery.Proofs.Asks
import KeyedQuery.Proofs.Interleaving
import KeyedQuery.Proofs.Store.Memory
import KeyedQuery.Proofs.Store.Thinning

/-!
# Collecting pages while rows are deleted

A fetch takes turns with a dialogue that deletes rows. The store takes note of the page requests and of what
they found (`Client.noting`), so that it can be said which rows stayed until the last page. Each of these is
collected once, unless it is missed (`Table.Misses`): the page that should have shown it starts behind a row
that has been deleted, and so it is empty and ends the fetch (`FetchPolicy.interleave_deletions`).
-/

namespace KeyedQuery

variable {β σ : Type}

/-- A store with a note of each page request, and of what the request found. -/
def Client.noting (client : Client σ) : Client (σ × List (PageRequest × σ)) := fun r s =>
  let (answer, after) := client r s.1
  (answer, after, match r with
    | .page q => s.2 ++ [(q, s.1)]
    | .batchGet _ _ | .transact _ _ | .put _ _ | .update _ _ _ _ _ | .delete _ _ => s.2)

/-- The request is to drop a row. -/
def Request.IsDelete : Request → Prop
  | .delete _ _ => True
  | .page _ | .batchGet _ _ | .transact _ _ | .put _ _ | .update _ _ _ _ _ => False

/-- A page misses a row of a request: it starts behind a row that is not among those it found, and the row
that it misses came later than that one. -/
def Table.Misses (t : Table) (rows : List Item) (q : PageRequest) (found : List Item) (row : Item) :
    Prop :=
  ∃ before cursor after, rows = before ++ cursor :: after ∧ q.start = some (t.keyOf cursor) ∧
    cursor ∉ found ∧ row ∈ after

/-- If the pages before covered a first part of the rows, a page misses the others or none. -/
theorem Table.misses_iff {t : Table} {rows seen rest found : List Item} {q : PageRequest} {row : Item}
    (hapart : t.KeysApart rows) (hrows : rows = seen ++ rest)
    (hstart : q.start = seen.getLast?.map t.keyOf) :
    t.Misses rows q found row ↔ ∃ cursor, seen.getLast? = some cursor ∧ cursor ∉ found ∧ row ∈ rest := by
  constructor
  · rintro ⟨before, cursor, after, hsplit, hcursor, hgone, hrow⟩
    rw [hstart] at hcursor
    obtain ⟨last, hlast, hkey⟩ := Option.map_eq_some_iff.mp hcursor
    have hmem : last ∈ rows := by
      rw [hrows]
      exact List.mem_append_left _ (List.mem_of_getLast? hlast)
    obtain rfl : last = cursor := by
      by_contra hne
      have hsame := hapart.ne_of_mem hmem (by simp [hsplit]) hne
      rw [hkey, Value.sameFields_refl] at hsame
      cases hsame
    have hafter : t.behind (some (t.keyOf last)) rows = after := by
      rw [hsplit] at hapart ⊢
      exact behind_keyOf hapart
    have hrest : t.behind (some (t.keyOf last)) rows = rest := by
      rw [hrows] at hapart ⊢
      simpa only [hlast, Option.map_some] using behind_getLast? hapart
    exact ⟨last, hlast, hgone, hafter.symm.trans hrest ▸ hrow⟩
  · rintro ⟨cursor, hlast, hgone, hrow⟩
    obtain ⟨before, rfl⟩ := List.getLast?_eq_some_iff.mp hlast
    exact ⟨before, cursor, rest, by simp [hrows], by rw [hstart, hlast]; rfl, hgone, hrow⟩

namespace Table

variable {t : Table} {rows seen rest : List Item} {q : PageRequest} {keep : Item → Bool}

/-- A page that starts behind a row that is kept misses none. -/
theorem not_misses (hapart : t.KeysApart rows) (hrows : rows = seen ++ rest)
    (hstart : q.start = seen.getLast?.map t.keyOf) (hmem : ∀ row ∈ rows, row ∈ t.items)
    (hkept : ∀ row, seen.getLast? = some row → keep row = true) (row : Item) :
    ¬ t.Misses rows q (t.items.filter keep) row := by
  rw [misses_iff hapart hrows hstart]
  rintro ⟨cursor, hcursor, hgone, -⟩
  have hin : cursor ∈ rows := hrows ▸ List.mem_append_left _ (List.mem_of_getLast? hcursor)
  exact hgone (List.mem_filter.mpr ⟨hmem cursor hin, hkept cursor hcursor⟩)

/-- A page that starts behind a row that is gone misses all that are left. -/
theorem misses_iff_of_gone (hapart : t.KeysApart rows) (hrows : rows = seen ++ rest)
    (hstart : q.start = seen.getLast?.map t.keyOf) {cursor : Item} (hcursor : seen.getLast? = some cursor)
    (hgone : keep cursor = false) (row : Item) :
    t.Misses rows q (t.items.filter keep) row ↔ row ∈ rest := by
  rw [misses_iff hapart hrows hstart]
  constructor
  · rintro ⟨-, -, -, hrow⟩
    exact hrow
  · exact fun hrow => ⟨cursor, hcursor, fun hin => by simp [hgone] at hin, hrow⟩

end Table

/-! ## Deletions -/

namespace Memory

variable {name : String} {t : Table} {pageSize : Option Nat} {keep : Item → Bool} {m : Memory}

/-- No request fails, and a table has the rows that are kept. -/
structure Retains (name : String) (t : Table) (pageSize : Option Nat) (keep : Item → Bool)
    (m : Memory) : Prop where
  failures_eq : m.failures = []
  pageSize_eq : m.pageSize = pageSize
  get?_eq : Fields.get? m.tables name = some (t.only keep)

theorem Retains.items_eq (h : m.Retains name t pageSize keep) : m.items name = t.items.filter keep := by
  rw [items, h.get?_eq]
  rfl

theorem Retains.receive_page (h : m.Retains name t pageSize keep) {q : PageRequest} {page : Page}
    (hname : q.table = name) (hpage : (t.only keep).page pageSize q = .ok page) :
    receive (.page q) m = (.ok page, m) := by
  rw [receive_eq_perform h.failures_eq]
  show ((m.table q.table).bind fun t => t.page m.pageSize q, m) = _
  rw [table, hname, h.get?_eq, h.pageSize_eq]
  exact congrArg (·, m) hpage

/-- A deletion leaves rows that were there before. -/
theorem Retains.delete (h : m.Retains name t pageSize keep) (hnodup : t.items.Nodup) {r : Request}
    (hr : r.IsDelete) : ∃ kept, (∀ row, kept row = true → keep row = true) ∧
      (receive r m).2.Retains name t pageSize kept := by
  cases r with
  | page _ | batchGet _ _ | transact _ _ | put _ _ | update _ _ _ _ _ => exact hr.elim
  | delete other key =>
    rw [receive_eq_perform h.failures_eq]
    show ∃ kept, _ ∧ (m.commit ((m.table other).map fun t => ((), m.withTable other (t.remove key)))).2.Retains
      name t pageSize kept
    cases hother : Fields.get? m.tables other with
    | none =>
      rw [table, hother]
      exact ⟨keep, fun _ hrow => hrow, h⟩
    | some u =>
      rw [table, hother]
      by_cases hname : other = name
      · subst hname
        obtain rfl := Option.some.inj (hother.symm.trans h.get?_eq)
        obtain ⟨kept, hkept⟩ := Table.exists_remove_eq_only
          (t := t.only keep) (hnodup.filter keep) key
        refine ⟨fun row => kept row && keep row, fun row hrow => (Bool.and_eq_true_iff.mp hrow).2,
          h.failures_eq, h.pageSize_eq, ?_⟩
        rw [← Table.only_only, ← hkept]
        exact Fields.get?_insert_self _ _ _
      · exact ⟨keep, fun _ hrow => hrow, h.failures_eq, h.pageSize_eq,
          (Fields.get?_insert_of_ne _ _ hname).trans h.get?_eq⟩

end Memory

/-! ## Fetches -/

namespace FetchPolicy

variable {t : Table} {q : PageRequest} {pageSize : Option Nat} {rows seen rest collected : List Item}
  {passes : Item → Bool}

/-- How far a fetch has come. -/
structure Progress where
  /-- The rows that the last page request found. -/
  found : Item → Bool := fun _ => true
  /-- The notes of the page requests. -/
  notes : List (PageRequest × Memory) := []

/-- The store has taken note of the page requests, and only lost rows of a table since the last one. -/
def Loses (name : String) (t : Table) (pageSize : Option Nat) (x : Progress) (_ : Unit)
    (s : Memory × List (PageRequest × Memory)) : Prop :=
  s.2 = x.notes ∧ ∃ keep, (∀ row, keep row = true → x.found row = true) ∧
    s.1.Retains name t pageSize keep

/-- The rows that a fetch has collected of those that its pages covered: all that pass the filter and were
still there. -/
structure Gathers (passes : Item → Bool) (x : Progress) (seen collected : List Item) : Prop where
  sublist : collected.Sublist (seen.filter passes)
  mem : ∀ row ∈ seen, passes row = true → x.found row = true → row ∈ collected

/-- A fetch has ended: of the rows that the last page request found those are collected that it did not
miss. -/
def Ended (name : String) (t : Table) (rows : List Item) (passes : Item → Bool) (x : Progress)
    (items : List Item) : Prop :=
  items.Sublist (rows.filter passes) ∧ ∃ last, x.notes.getLast? = some last ∧
    ∀ row ∈ rows, passes row = true → row ∈ last.2.items name →
      (row ∈ items ↔ ¬ t.Misses rows last.1 (last.2.items name) row)

variable {x x' : Progress} {name : String} {policy : FetchPolicy}

theorem Gathers.extend (h : Gathers passes x seen collected) (x' : Progress) (covered : List Item)
    (hfound : ∀ row, x'.found row = true → x.found row = true) :
    Gathers passes x' (seen ++ covered)
      (collected ++ covered.filter fun row => passes row && x'.found row) where
  sublist := by
    rw [List.filter_append, ← List.filter_filter]
    exact h.sublist.append (List.filter_sublist.filter passes)
  mem row hrow hpasses hkept := by
    rcases List.mem_append.mp hrow with hseen | hcovered
    · exact List.mem_append_left _ (h.mem row hseen hpasses (hfound row hkept))
    · exact List.mem_append_right _ (List.mem_filter.mpr ⟨hcovered, by rw [hpasses, hkept]; rfl⟩)

/-- A page request is answered with a page of what is left of the table. -/
theorem meets_page {Q : Progress → Page → Prop} (hname : q.table = name)
    (h : ∀ keep m, (∀ row, keep row = true → x.found row = true) →
      m.Retains name t pageSize keep → ∃ page, (t.only keep).page pageSize q = .ok page ∧
        Q ⟨keep, x.notes ++ [(q, m)]⟩ page) :
    Run.Meets (Client.noting Memory.receive) (Loses name t pageSize) (policy.page q) Q x := by
  refine Run.Meets.request policy.retry (B := fun _ x' => x' = x) ?_ rfl
  rintro _ x' rfl _ ⟨m, notes⟩ ⟨hnotes, keep, hkeep, hretains⟩
  obtain ⟨page, hpage, hQ⟩ := h keep m hkeep hretains
  have hreceive := hretains.receive_page hname hpage
  refine ⟨⟨keep, x'.notes ++ [(q, m)]⟩, ⟨congrArg (· ++ [(q, m)]) hnotes, keep, fun _ h => h, ?_⟩, ?_⟩
  · show (Memory.receive (.page q) m).2.Retains name t pageSize keep
    rw [hreceive]
    exact hretains
  · show Run.Meets.Bearable _ Q _ _ (Memory.receive (.page q) m).1
    rw [hreceive]
    exact hQ

/-- With the last page a fetch has ended. -/
theorem Gathers.ended (h : Gathers passes x' seen collected) {m : Memory} {notes : List (PageRequest × Memory)}
    (hapart : t.KeysApart rows) (hrows : rows = seen ++ rest)
    (hnotes : x'.notes = notes ++ [(q, m)]) (hitems : m.items name = t.items.filter x'.found)
    (hrest : ∀ row ∈ rest, t.Misses rows q (t.items.filter x'.found) row)
    (hseen : ∀ row ∈ seen, ¬ t.Misses rows q (t.items.filter x'.found) row) :
    Ended name t rows passes x' collected := by
  have hnodup : (seen ++ rest).Nodup := hrows ▸ hapart.nodup
  refine ⟨h.sublist.trans ?_, (q, m), by rw [hnotes, List.getLast?_concat], ?_⟩
  · rw [hrows, List.filter_append]
    exact List.sublist_append_left _ _
  · rw [hitems]
    intro row hrow hpasses hleft
    rw [hrows] at hrow
    rcases List.mem_append.mp hrow with hrow | hrow
    · exact iff_of_true (h.mem row hrow hpasses (List.mem_filter.mp hleft).2) (hseen row hrow)
    · refine iff_of_false (fun hcollected => ?_) (not_not.mpr (hrest row hrow))
      have hother := (List.mem_filter.mp (h.sublist.subset hcollected)).1
      exact (List.nodup_append.mp hnodup).2.2 row hother row hrow rfl

/-- A page request either ends the fetch or covers some of the rows that are left. -/
theorem meets_turn (more : List Item → Item → Run (List Item)) (hpageSize : pageSize ≠ some 0)
    (hapart : t.KeysApart rows) (hmem : ∀ row ∈ rows, row ∈ t.items) (hname : q.table = name)
    (hanswers : t.Answers q rows passes) (hsteady : t.Steady q rows) (hcount : q.countOnly = false)
    (hlimit : q.limit ≠ some 0) (hrows : rows = seen ++ rest)
    (hstart : q.start = seen.getLast?.map t.keyOf) (hgathers : Gathers passes x seen collected)
    (hmore : ∀ x' key covered others collected', rest = covered ++ others → covered ≠ [] →
      others ≠ [] → some key = (seen ++ covered).getLast?.map t.keyOf →
      Gathers passes x' (seen ++ covered) collected' →
      Run.Meets (Client.noting Memory.receive) (Loses name t pageSize) (more collected' key)
        (Ended name t rows passes) x') :
    Run.Meets (Client.noting Memory.receive) (Loses name t pageSize)
      (do
        let page ← policy.page q
        goOn none (collected ++ page.items) page.last (more (collected ++ page.items)))
      (Ended name t rows passes) x := by
  refine (meets_page (Q := fun x' page => Run.Meets _ _ (goOn none (collected ++ page.items) page.last
    (more (collected ++ page.items))) _ x') hname fun keep m hkeep hretains => ?_).bind
    fun _ _ hmeets => hmeets
  -- The page goes on only if the row is still there behind which it starts.
  by_cases hkept : ∀ row, seen.getLast? = some row → keep row = true
  · obtain ⟨page, covered, others, hpage, hadvances⟩ :=
      hanswers.page_only hapart hsteady hrows hstart hkept hcount hlimit hpageSize
    refine ⟨page, hpage, ?_⟩
    have hextended := hgathers.extend ⟨keep, x.notes ++ [(q, m)]⟩ covered hkeep
    rw [← hadvances.items_eq] at hextended
    cases hlast : page.last with
    | none =>
      have hall : rows = (seen ++ covered) ++ [] := by
        rw [hrows, hadvances.rest_eq, hadvances.others_eq hlast, List.append_nil, List.append_nil]
      exact .pure (hextended.ended hapart hall rfl hretains.items_eq (by simp) fun row _ =>
        Table.not_misses hapart hrows hstart hmem hkept row)
    | some key =>
      obtain ⟨hcovered, hothers, hkey⟩ := hadvances.last_eq key hlast
      exact hmore _ key covered others _ hadvances.rest_eq hcovered hothers hkey hextended
  · simp only [not_forall, Bool.not_eq_true] at hkept
    obtain ⟨cursor, hcursor, hgone⟩ := hkept
    have hin : cursor ∈ rows := hrows ▸ List.mem_append_left _ (List.mem_of_getLast? hcursor)
    refine ⟨_, hanswers.page_only_of_gone hapart hsteady hin hgone (by rw [hstart, hcursor]; rfl)
      pageSize, ?_⟩
    have hextended := hgathers.extend ⟨keep, x.notes ++ [(q, m)]⟩ [] hkeep
    rw [List.append_nil] at hextended
    have hmisses := Table.misses_iff_of_gone hapart hrows hstart hcursor hgone
    refine .pure (hextended.ended hapart hrows rfl hretains.items_eq
      (fun row hrow => (hmisses row).mpr hrow) fun row hrow hmissed => ?_)
    exact (List.nodup_append.mp (hrows ▸ hapart.nodup)).2.2 row hrow row ((hmisses row).mp hmissed) rfl

/-- A fetch that has enough pages left for the rows that are left ends. The induction is on these pages. -/
theorem meets_collectFrom (policy : FetchPolicy) (hpageSize : pageSize ≠ some 0)
    (hapart : t.KeysApart rows) (hmem : ∀ row ∈ rows, row ∈ t.items) :
    ∀ (further : Nat) {q : PageRequest} {seen rest collected : List Item} {x : Progress},
      q.table = name → t.Answers q rows passes → t.Steady q rows → q.countOnly = false →
      q.limit ≠ some 0 → rows = seen ++ rest → q.start = seen.getLast?.map t.keyOf →
      Gathers passes x seen collected → rest.length ≤ further + 1 →
      Run.Meets (Client.noting Memory.receive) (Loses name t pageSize)
        (policy.collectFrom none collected q further) (Ended name t rows passes) x := by
  intro further
  induction further with
  | zero =>
    intro q seen rest collected x hname hanswers hsteady hcount hlimit hrows hstart hgathers hlength
    refine meets_turn (fun _ _ => throw policy.exhausted) hpageSize hapart hmem hname hanswers
      hsteady hcount hlimit hrows hstart hgathers fun _ _ covered others _ hrest hcovered hothers => ?_
    have hpos := List.length_pos_of_ne_nil hcovered
    have hpos' := List.length_pos_of_ne_nil hothers
    rw [hrest, List.length_append] at hlength
    omega
  | succ further ih =>
    intro q seen rest collected x hname hanswers hsteady hcount hlimit hrows hstart hgathers hlength
    refine meets_turn (fun collected key => policy.collectFrom none collected (q.resumeFrom key) further)
      hpageSize hapart hmem hname hanswers hsteady hcount hlimit hrows hstart hgathers
      fun x' key covered others collected' hrest hcovered _ hkey hgathers => ?_
    have hpos := List.length_pos_of_ne_nil hcovered
    rw [hrest, List.length_append] at hlength
    have hrows : rows = (seen ++ covered) ++ others := by rw [hrows, hrest, List.append_assoc]
    exact ih hname (hanswers.resume q.limit (some key)) hsteady hcount hlimit hrows hkey hgathers
      (by omega)

theorem meets_deletions (hnodup : t.items.Nodup) {deletions : Dialogue β}
    (h : deletions.Asks Request.IsDelete) : deletions.Meets (Client.noting Memory.receive)
      (fun y x => Loses name t pageSize x y) (fun _ _ => True) () := by
  induction deletions with
  | done a => trivial
  | ask r next ih =>
    rintro x ⟨m, notes⟩ ⟨hnotes, keep, hkeep, hretains⟩
    obtain ⟨kept, hkept, hretains⟩ := hretains.delete hnodup h.1
    have hsame : (Client.noting Memory.receive r (m, notes)).2.2 = notes := by
      cases r with
      | page _ => exact h.1.elim
      | batchGet _ _ | transact _ _ | put _ _ | update _ _ _ _ _ | delete _ _ => rfl
    exact ⟨(), ⟨hsame.trans hnotes, kept, fun row hrow => hkeep row (hkept row hrow), hretains⟩,
      ih _ (h.2 _)⟩
  | sleep ms next ih => exact ih h
  | tally c n next ih => exact ih h

/-- A fetch that takes turns with deletions ends. It collects rows of the request in their order, none of them
twice, and of those that the last page request found it collects each that this request did not miss. -/
theorem interleave_deletions (policy : FetchPolicy) {m : Memory} (hcalm : m.failures = [])
    (hpageSize : m.pageSize ≠ some 0) (ht : Fields.get? m.tables q.table = some t)
    (hapart : t.KeysApart t.items) (hanswers : t.Answers q rows passes) (hsteady : t.Steady q rows)
    (hstart : q.start = none) (hcount : q.countOnly = false) (hlimit : q.limit ≠ some 0)
    (hpages : rows.length ≤ policy.furtherPages + 1) {deletions : Dialogue β}
    (hdeletions : deletions.Asks Request.IsDelete) (turns : List Turn) :
    let outcome := Dialogue.interleave (Client.noting Memory.receive) turns
      (policy.collect q none).run deletions { store := (m, []) }
    ∃ items last, outcome.1.1 = .ok items ∧ outcome.2.store.2.getLast? = some last ∧
      items.Sublist (rows.filter passes) ∧
      ∀ row ∈ rows.filter passes, row ∈ last.2.items q.table →
        (items.count row = 1 ↔ ¬ t.Misses rows last.1 (last.2.items q.table) row) := by
  intro outcome
  obtain ⟨test, hperm⟩ := Table.exists_perm_of_candidates hanswers.candidates
  have hrowsApart : t.KeysApart rows := hapart.of_perm hperm
  have hmem : ∀ row ∈ rows, row ∈ t.items := fun row hrow =>
    (List.mem_filter.mp (hperm.subset hrow)).1
  have hfetch : Run.Meets (Client.noting Memory.receive) (Loses q.table t m.pageSize)
      (policy.collect q none) (Ended q.table t rows passes) {} := by
    rw [collect, if_neg (by simp)]
    have hrows : rows = [] ++ rows := rfl
    exact policy.meets_collectFrom hpageSize hrowsApart hmem policy.furtherPages rfl hanswers hsteady
      hcount hlimit hrows hstart ⟨by simp, by simp⟩ hpages
  have hbegin : Loses q.table t m.pageSize {} () (m, []) := by
    refine ⟨rfl, fun _ => true, fun _ h => h, hcalm, rfl, ?_⟩
    rw [ht, Table.only, List.filter_true]
  obtain ⟨x, _, ⟨hnotes, -⟩, ⟨items, hitems, hsublist, last, hlast, hended⟩, -⟩ :=
    Dialogue.Meets.interleave turns hfetch (meets_deletions hapart.nodup hdeletions)
      (w := { store := (m, []) }) hbegin
  refine ⟨items, last, hitems, by rw [hnotes, hlast], hsublist, fun row hrow hleft => ?_⟩
  obtain ⟨hrow, hpasses⟩ := List.mem_filter.mp hrow
  rw [← hended row hrow hpasses hleft,
    (hsublist.nodup (hrowsApart.nodup.filter passes)).count, ite_eq_left_iff]
  simp

/-- The users of a team, from the highest rank down, one on a page. After the first page one of the others
is deleted. -/
theorem interleave_deletions_ranks :
    let user (id : String) (rank : Int) : Item :=
      [("id", .str id), ("rank", .num (.int rank)), ("team", .str "x")]
    let users : Table :=
      { keys := { partition := "id" }, indexes := [("by_team", { partition := "team", sort := some "rank" })]
        items := [user "a" 1, user "b" 3, user "c" 2] }
    let store : Memory := { tables := [("users", users)], pageSize := some 1 }
    let q : PageRequest :=
      { table := "users", access := .query (some "by_team") "#n0 = :v0" false
        attributes := { names := [("#n0", "team")], values := [(":v0", .str "x")] } }
    let policy := Config.fetchPolicy { pageMode := .unbounded } 2
    let outcome := Dialogue.interleave (Client.noting Memory.receive) [.first, .first, .second]
      (policy.collect q none).run (Dialogue.send (.delete "users" [("id", .str "c")]))
      { store := (store, []) }
    ∃ last, outcome.1.1 = .ok [user "b" 3, user "a" 1] ∧ outcome.2.store.2.getLast? = some last ∧
      user "a" 1 ∈ last.2.items "users" ∧
      ¬ users.Misses [user "b" 3, user "c" 2, user "a" 1] last.1 (last.2.items "users") (user "a" 1) := by
  intro user users store q policy
  have hanswers : users.Answers q [user "b" 3, user "c" 2, user "a" 1] fun _ => true :=
    ⟨by decide +kernel, fun _ => rfl⟩
  have hsteady : users.Steady q [user "b" 3, user "c" 2, user "a" 1] :=
    Table.steady_of_kind .number rfl rfl (by decide +kernel)
  have hdeletions : (Dialogue.send (.delete "users" [("id", .str "c")])).Asks Request.IsDelete :=
    ⟨trivial, fun _ => trivial⟩
  have hresult : (Dialogue.interleave (Client.noting Memory.receive) [.first, .first, .second]
      (policy.collect q none).run (Dialogue.send (.delete "users" [("id", .str "c")]))
      { store := (store, []) }).1.1 = .ok [user "b" 3, user "a" 1] := by decide +kernel
  have hfound : ∀ note ∈ (Dialogue.interleave (Client.noting Memory.receive) [.first, .first, .second]
      (policy.collect q none).run (Dialogue.send (.delete "users" [("id", .str "c")]))
      { store := (store, []) }).2.store.2, user "a" 1 ∈ note.2.items "users" := by decide +kernel
  have hrun := interleave_deletions policy (m := store) (q := q) rfl (by decide) rfl
    (by decide +kernel) hanswers hsteady rfl rfl (by decide) (by decide) hdeletions
    [.first, .first, .second]
  generalize Dialogue.interleave (Client.noting Memory.receive) [.first, .first, .second]
    (policy.collect q none).run (Dialogue.send (.delete "users" [("id", .str "c")]))
    { store := (store, []) } = outcome at hresult hfound hrun ⊢
  intro _
  obtain ⟨items, last, hitems, hlast, -, hended⟩ := hrun
  obtain rfl := Except.ok.inj (hitems.symm.trans hresult)
  have hleft := hfound last (List.mem_of_getLast? hlast)
  exact ⟨last, hresult, hlast, hleft, (hended _ (by decide) hleft).mp (by decide)⟩

/-- The first page shows one row, which is deleted then. The next page starts behind it, shows nothing and is
the last one, though another row has been there all the time. -/
theorem not_interleave_deletions :
    let one : Item := [("id", .num (.int 1))]
    let two : Item := [("id", .num (.int 2))]
    let users : Table := { keys := { partition := "id" }, items := [one, two] }
    let store : Memory := { tables := [("users", users)], pageSize := some 1 }
    let outcome := Dialogue.interleave (Client.noting Memory.receive) [.first, .first, .second]
      ((Config.fetchPolicy { pageMode := .unbounded } 2).collect { table := "users", access := .scan } none).run
      (Dialogue.send (.delete "users" one)) { store := (store, []) }
    outcome.1.1 = .ok [one] ∧ outcome.2.store.2.length = 2 ∧
      ∀ note ∈ outcome.2.store.2, two ∈ note.2.items "users" := by
  decide +kernel

end FetchPolicy

end KeyedQuery
