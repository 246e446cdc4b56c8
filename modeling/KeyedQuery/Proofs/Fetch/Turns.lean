import KeyedQuery.Proofs.Fetch.Attempts
import KeyedQuery.Proofs.Fetch.Pages

/-!
# Page after page

A fetch asks for one page after the other, and each request is a function of the pages before it
(`PageRequest.next`). A store thereby has a sequence of pages for a request (`Client.pages`), whatever it
answers with, and a fetch in which no request fails takes its first pages: up to the first one that ends it
(`FetchPolicy.unfinished`), or as many as it may take. `Config.fetch_pages` says this of collecting and of
counting.
-/

namespace KeyedQuery

variable {α σ : Type}

namespace PageRequest

/-- The request behind some pages. -/
def behind (q : PageRequest) (before : List Page) : PageRequest :=
  { q with start := before.getLast?.elim q.start Page.last }

/-- The request for the page behind some pages, with a limit of what is still missing. -/
def next (q : PageRequest) (limit : Option Nat) (before : List Page) : PageRequest :=
  (q.behind before).forMissing limit (before.flatMap Page.items).length

/-- What it is to ask for some pages and to get them, behind those before them. -/
def turns (q : PageRequest) (limit : Option Nat) : (before pages : List Page) → List Act
  | _, [] => []
  | before, page :: pages =>
    Act.sending (.page (q.next limit before)) (.ok page) ++ q.turns limit (before ++ [page]) pages

theorem resumeFrom_behind {page : Page} {key : Item} (h : page.last = some key) (q : PageRequest)
    (before : List Page) : (q.behind before).resumeFrom key = q.behind (before ++ [page]) := by
  simp [behind, resumeFrom, h]

end PageRequest

/-- The first pages of a request, behind those before them, as far as the store answers. -/
def Client.pages (client : Client σ) (q : PageRequest) (limit : Option Nat) :
    (before : List Page) → σ → Nat → List Page
  | _, _, 0 => []
  | before, s, n + 1 =>
    match client (.page (q.next limit before)) s with
    | (.ok page, s) => page :: client.pages q limit (before ++ [page]) s n
    | (.error _, _) => []

namespace FetchPolicy

/-- Some pages do not end a fetch: the limit is not reached, and the last of them has a key. -/
def unfinished (limit : Option Nat) (pages : List Page) : Bool :=
  !reached limit (pages.flatMap Page.items) && (pages.getLast?.bind Page.last).isSome

end FetchPolicy

/-! ## Pages -/

section

variable {client : Client σ} {q : PageRequest} {limit : Option Nat} {before : List Page} {page : Page}
  {s s' : σ}

theorem Client.pages_succ (h : client (.page (q.next limit before)) s = (.ok page, s')) (n : Nat) :
    client.pages q limit before s (n + 1) = page :: client.pages q limit (before ++ [page]) s' n := by
  rw [pages, h]

theorem Client.pages_one (h : client (.page (q.next limit before)) s = (.ok page, s')) :
    client.pages q limit before s 1 = [page] :=
  pages_succ h 0

theorem Client.append_pages_succ (h : client (.page (q.next limit before)) s = (.ok page, s')) (n : Nat) :
    before ++ client.pages q limit before s (n + 1) =
      before ++ [page] ++ client.pages q limit (before ++ [page]) s' n := by
  rw [pages_succ h]
  exact List.append_cons _ _ _

end

/-- What a fetch does that takes the first `n` pages of a request behind some pages, of as many as it may
take. -/
structure Fetched (client : Client σ) (q : PageRequest) (limit : Option Nat) (before : List Page) (s : σ)
    (budget n : Nat) (acts : List Act) : Prop where
  pos : 0 < n
  le_budget : n ≤ budget
  length_eq : (client.pages q limit before s n).length = n
  unfinished : ∀ j, 0 < j → j < n →
    FetchPolicy.unfinished limit (before ++ client.pages q limit before s j) = true
  eq_budget : FetchPolicy.unfinished limit (before ++ client.pages q limit before s n) = true → n = budget
  acts_eq : acts = q.turns limit before (client.pages q limit before s n)

namespace Fetched

variable {client : Client σ} {q : PageRequest} {limit : Option Nat} {before : List Page} {page : Page}
  {s s' : σ} {budget n : Nat} {acts : List Act}

/-- A fetch may end with a page after which it would not go on, or that is the last one it may take. -/
theorem one (h : client (.page (q.next limit before)) s = (.ok page, s')) (hbudget : 0 < budget)
    (hlast : FetchPolicy.unfinished limit (before ++ [page]) = true → budget = 1) :
    Fetched client q limit before s budget 1 (Act.sending (.page (q.next limit before)) (.ok page)) := by
  refine ⟨Nat.one_pos, hbudget, congrArg List.length (Client.pages_one h), fun j hpos hlt => by omega,
    fun hopen => ?_, ?_⟩
  · rw [Client.pages_one h] at hopen
    exact (hlast hopen).symm
  · rw [Client.pages_one h]
    exact (List.append_nil _).symm

theorem more (h : client (.page (q.next limit before)) s = (.ok page, s'))
    (hopen : FetchPolicy.unfinished limit (before ++ [page]) = true)
    (hrest : Fetched client q limit (before ++ [page]) s' budget n acts) :
    Fetched client q limit before s (budget + 1) (n + 1)
      (Act.sending (.page (q.next limit before)) (.ok page) ++ acts) := by
  refine ⟨Nat.succ_pos n, Nat.succ_le_succ hrest.le_budget, ?_, fun j hpos hlt => ?_, fun hend => ?_, ?_⟩
  · rw [Client.pages_succ h, List.length_cons, hrest.length_eq]
  · cases j with
    | zero => cases hpos
    | succ j =>
      rw [Client.append_pages_succ h]
      cases j with
      | zero => simpa [Client.pages] using hopen
      | succ j => exact hrest.unfinished (j + 1) (Nat.succ_pos j) (Nat.lt_of_succ_lt_succ hlt)
  · rw [Client.append_pages_succ h] at hend
    exact congrArg (· + 1) (hrest.eq_budget hend)
  · rw [Client.pages_succ h, hrest.acts_eq]
    rfl

end Fetched

/-! ## Loops over pages -/

namespace FetchPolicy

/-- Follow the pages behind some pages, and make something of all of them at the end. -/
def follow (policy : FetchPolicy) (q : PageRequest) (limit : Option Nat) (done : List Page → α) :
    (further : Nat) → (before : List Page) → Run α
  | 0, before => do
    let page ← policy.page (q.next limit before)
    if unfinished limit (before ++ [page]) then throw policy.exhausted else pure (done (before ++ [page]))
  | further + 1, before => do
    let page ← policy.page (q.next limit before)
    if unfinished limit (before ++ [page]) then policy.follow q limit done further (before ++ [page])
    else pure (done (before ++ [page]))

section

variable (policy : FetchPolicy) {client : Client σ} (q : PageRequest) (limit : Option Nat)

theorem goOn_eq {page : Page} {before : List Page} {more : Item → Run (List Item)}
    {last : Run (List Item)} (hmore : ∀ key, page.last = some key → more key = last) :
    goOn limit (before.flatMap Page.items ++ page.items) page.last more =
      if unfinished limit (before ++ [page]) then last
      else pure (takeAtMost limit ((before ++ [page]).flatMap Page.items)) := by
  have hitems : (before ++ [page]).flatMap Page.items = before.flatMap Page.items ++ page.items := by simp
  unfold goOn unfinished
  rw [hitems, List.getLast?_concat, Option.bind_some]
  cases hreached : reached limit (before.flatMap Page.items ++ page.items) with
  | true => rfl
  | false =>
    cases hlast : page.last with
    | none => exact congrArg Pure.pure (takeAtMost_of_not_reached hreached).symm
    | some key => exact hmore key hlast

/-- Collecting follows the pages and takes all their rows. -/
theorem collectFrom_eq_follow : ∀ further before,
    policy.collectFrom limit (before.flatMap Page.items) (q.behind before) further =
      policy.follow q limit (fun pages => takeAtMost limit (pages.flatMap Page.items)) further before := by
  intro further
  induction further with
  | zero => exact fun before => congrArg _ (funext fun page => goOn_eq limit fun _ _ => rfl)
  | succ further ih =>
    refine fun before => congrArg _ (funext fun page => goOn_eq limit fun key hkey => ?_)
    rw [PageRequest.resumeFrom_behind hkey, ← ih]
    simp

/-- Counting follows the pages and adds up their counts. -/
theorem countFrom_eq_follow : ∀ further before,
    policy.countFrom (before.map Page.count).sum (q.behind before) further =
      policy.follow q none (fun pages => (pages.map Page.count).sum) further before := by
  have htotal : ∀ (before : List Page) (page : Page),
      ((before ++ [page]).map Page.count).sum = (before.map Page.count).sum + page.count := by simp
  have hlast : ∀ (before : List Page) (page : Page),
      unfinished none (before ++ [page]) = page.last.isSome := by simp [unfinished, reached]
  intro further
  induction further with
  | zero =>
    refine fun before => congrArg _ (funext fun page => ?_)
    dsimp only
    rw [hlast, htotal]
    cases page.last <;> rfl
  | succ further ih =>
    refine fun before => congrArg _ (funext fun page => ?_)
    dsimp only
    rw [hlast, htotal]
    cases hkey : page.last with
    | none => rfl
    | some key =>
      dsimp only
      rw [PageRequest.resumeFrom_behind hkey, ← htotal, ih]
      rfl

/-- Page after page is asked for, up to one that ends the fetch, or as many as it may take. -/
theorem account_follow (done : List Page → α) : ∀ further before s,
    ((policy.follow q limit done further before).account client s).NoneFails →
    ∃ n acts s', Fetched client q limit before s (further + 1) n acts ∧
      (policy.follow q limit done further before).account client s =
        let pages := before ++ client.pages q limit before s n
        ⟨if unfinished limit pages then .error policy.exhausted else .ok (done pages), acts, s'⟩ := by
  intro further
  induction further with
  | zero =>
    intro before s hnone
    obtain ⟨page, s', hpage, -, haccount⟩ := policy.retry.account_request_bind_of_noneFails hnone
    refine ⟨1, _, s', .one hpage Nat.one_pos fun _ => rfl, haccount.trans ?_⟩
    dsimp only
    rw [Client.pages_one hpage]
    split <;> exact congrArg (Account.mk _ · _) (List.append_nil _)
  | succ further ih =>
    intro before s hnone
    obtain ⟨page, s', hpage, hrest, haccount⟩ := policy.retry.account_request_bind_of_noneFails hnone
    cases hopen : unfinished limit (before ++ [page]) with
    | false =>
      refine ⟨1, _, s', .one hpage (Nat.succ_pos _) fun h => absurd h (by simp [hopen]),
        haccount.trans ?_⟩
      dsimp only
      rw [Client.pages_one hpage, hopen]
      exact congrArg (Account.mk _ · _) (List.append_nil _)
    | true =>
      rw [hopen] at hrest haccount
      obtain ⟨n, acts, s'', hfetched, hfollowed⟩ := ih (before ++ [page]) s' hrest
      refine ⟨n + 1, _, s'', .more hpage hopen hfetched, haccount.trans ?_⟩
      rw [if_pos rfl, hfollowed, Client.append_pages_succ hpage]
      rfl

end

end FetchPolicy

/-! ## Requests of a fetch -/

namespace Fetched

variable {client : Client σ} {q : PageRequest} {limit : Option Nat} {s : σ} {budget n : Nat}
  {acts : List Act}

/-- Each request but the first one starts behind the key of the page before it. -/
theorem start_next (h : Fetched client q limit [] s budget n acts) {j : Nat} (hpos : 0 < j) (hlt : j < n) :
    ∃ page key, (client.pages q limit [] s j).getLast? = some page ∧ page.last = some key ∧
      (q.next limit (client.pages q limit [] s j)).start = some key := by
  have hopen := h.unfinished j hpos hlt
  rw [List.nil_append, FetchPolicy.unfinished, Bool.and_eq_true, Option.isSome_iff_exists] at hopen
  obtain ⟨-, key, hkey⟩ := hopen
  obtain ⟨page, hpage, hkey⟩ := Option.bind_eq_some_iff.mp hkey
  have hstart : (q.next limit (client.pages q limit [] s j)).start =
      (q.behind (client.pages q limit [] s j)).start := by
    cases limit <;> rfl
  refine ⟨page, key, hpage, hkey, hstart.trans ?_⟩
  rw [PageRequest.behind, hpage]
  exact hkey

/-- Each request has the number of rows that are missing as its limit, and some are missing. -/
theorem limit_next {l : Nat} (hlimit : limit = some l) (hl : l ≠ 0)
    (h : Fetched client q limit [] s budget n acts) {j : Nat} (hlt : j < n) :
    ∃ missing, 0 < missing ∧ ((client.pages q limit [] s j).flatMap Page.items).length + missing = l ∧
      (q.next limit (client.pages q limit [] s j)).limit = some missing := by
  subst hlimit
  have hcollected : ((client.pages q (some l) [] s j).flatMap Page.items).length < l := by
    cases j with
    | zero => exact Nat.pos_of_ne_zero hl
    | succ j =>
      have hopen := h.unfinished (j + 1) (Nat.succ_pos j) hlt
      rw [List.nil_append, FetchPolicy.unfinished, Bool.and_eq_true, Bool.not_eq_true'] at hopen
      simpa [FetchPolicy.reached] using hopen.1
  exact ⟨_, Nat.sub_pos_of_lt hcollected, Nat.add_sub_cancel' (Nat.le_of_lt hcollected), rfl⟩

end Fetched

namespace Config

variable (c : Config) (horizon : Nat)

/-- The pages that a fetch may take: those that are configured, or up to the horizon. -/
def pageBudget : Nat :=
  if c.pageMode = .throw then c.maxPages else horizon + 1

theorem furtherPages_fetchPolicy (hmax : 0 < c.maxPages) :
    (c.fetchPolicy horizon).furtherPages + 1 = c.pageBudget horizon := by
  unfold fetchPolicy pageBudget
  cases c.pageMode with
  | throw => exact Nat.sub_add_cancel hmax
  | unbounded => rfl

theorem exhausted_fetchPolicy_iff :
    (c.fetchPolicy horizon).exhausted = .pageLimit c.maxPages ↔ c.pageMode = .throw := by
  unfold fetchPolicy
  cases c.pageMode <;> simp

/-- The page limit is the fault if it is configured and the last page that may be taken does not end the
fetch. -/
theorem pageLimit_iff {n : Nat} {unfinished : Bool} {a : α} {result : Except Fault α}
    (hresult : result = if unfinished then .error (c.fetchPolicy horizon).exhausted else .ok a)
    (hlast : unfinished = true → n = c.pageBudget horizon) :
    result = .error (.pageLimit c.maxPages) ↔
      c.pageMode = .throw ∧ n = c.maxPages ∧ unfinished = true := by
  rw [hresult, ← c.exhausted_fetchPolicy_iff horizon]
  cases unfinished with
  | false => simp
  | true =>
    rw [if_pos rfl, Except.error.injEq]
    refine ⟨fun h => ⟨h, ?_, rfl⟩, And.left⟩
    rw [hlast rfl, pageBudget, if_pos ((c.exhausted_fetchPolicy_iff horizon).mp h)]

end Config

end KeyedQuery
