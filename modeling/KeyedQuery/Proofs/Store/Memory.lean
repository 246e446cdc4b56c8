import KeyedQuery.Proofs.Asks
import KeyedQuery.Proofs.Store.Layout

/-!
# Reading from memory

Pages and batch gets leave the tables of a memory alone, whatever failures have been scripted.
`Memory.Holds` is what they keep, and `Memory.serves_page` and `Memory.serves_batchGet` are what they
answer. In a calm memory, one without scripted failures, they answer at once, and a dialogue that sends
nothing else ends with its value under `Memory.answer` (`Memory.run_eq_value`).
-/

namespace KeyedQuery

/-- The request leaves the tables alone. -/
def Request.Reads : Request → Prop
  | .page _ | .batchGet _ _ => True
  | .transact _ _ | .put _ _ | .update _ _ _ _ _ | .delete _ _ => False

/-- The request is for a page. -/
def Request.IsPage : Request → Prop
  | .page _ => True
  | .batchGet _ _ | .transact _ _ | .put _ _ | .update _ _ _ _ _ | .delete _ _ => False

namespace Memory

variable {tables : Fields Table} {pageSize : Option Nat} {calm : Prop} {E : Fault → Prop} {t : Table}
  {m : Memory}

/-- The memory has the given tables and page size, and no failures have been scripted for it if it
is to be calm. -/
structure Holds (tables : Fields Table) (pageSize : Option Nat) (calm : Prop) (m : Memory) :
    Prop where
  tables_eq : m.tables = tables
  pageSize_eq : m.pageSize = pageSize
  failures_eq : calm → m.failures = []
  rounds_eq : calm → m.unprocessedRounds = 0

theorem takeFailure?_eq_some {kind : RequestKind} {fault : StoreFault} {next : Memory}
    (h : m.takeFailure? kind = some (fault, next)) :
    m.failures ≠ [] ∧ ∃ failures, next = { m with failures } := by
  obtain ⟨i, hi, hnext⟩ := Option.bind_eq_some_iff.mp h
  obtain ⟨f, hf, hpair⟩ := Option.map_eq_some_iff.mp hnext
  obtain ⟨-, rfl⟩ := Prod.mk.inj hpair
  refine ⟨?_, _, rfl⟩
  rintro hnil
  simp [hnil] at hi

theorem takeFailure?_eq_none_iff {kind : RequestKind} :
    m.takeFailure? kind = none ↔ ∀ f ∈ m.failures, f.1 ≠ kind := by
  rw [takeFailure?]
  cases hi : m.failures.findIdx? fun f => f.1 = kind with
  | none => simpa using List.findIdx?_eq_none_iff.mp hi
  | some i =>
    obtain ⟨hlt, hkind, -⟩ := List.findIdx?_eq_some_iff_getElem.mp hi
    simp only [Option.bind_some, List.getElem?_eq_getElem hlt, Option.map_some, reduceCtorEq,
      false_iff, not_forall]
    exact ⟨m.failures[i], List.getElem_mem hlt, not_not.mpr (of_decide_eq_true hkind)⟩

/-- A request is carried out if no failure is scripted for its kind. -/
theorem receive_of_unscripted {r : Request} (h : ∀ f ∈ m.failures, f.1 ≠ r.kind) :
    receive r m = m.perform r := by
  rw [receive, takeFailure?_eq_none_iff.mpr h]

/-- Without scripted failures every request is carried out. -/
theorem receive_eq_perform (hcalm : m.failures = []) (r : Request) : receive r m = m.perform r :=
  receive_of_unscripted (by simp [hcalm])

/-- A request that leaves the tables alone is answered as it is carried out, or fails as
scripted. -/
theorem serves_of_perform {r : Request} {A : r.Answer → Prop} (hE : ¬calm → ∀ fault, E fault)
    (hperform : ∀ m, Holds tables pageSize calm m → Holds tables pageSize calm (m.perform r).2 ∧
      ∃ answer, (m.perform r).1 = .ok answer ∧ A answer) :
    Client.Serves receive (Holds tables pageSize calm) r A E := by
  intro m hm
  unfold receive
  split
  · rename_i fault next hfailure
    obtain ⟨hne, failures, rfl⟩ := takeFailure?_eq_some hfailure
    have hcalm : ¬calm := fun hcalm => hne (hm.failures_eq hcalm)
    exact ⟨⟨hm.tables_eq, hm.pageSize_eq, fun h => absurd h hcalm, hm.rounds_eq⟩, hE hcalm _⟩
  · obtain ⟨hholds, answer, hanswer, hA⟩ := hperform m hm
    refine ⟨hholds, ?_⟩
    rw [hanswer]
    exact hA

theorem table_eq_ok {name : String} (hm : Holds tables pageSize calm m)
    (ht : Fields.get? tables name = some t) : m.table name = .ok t := by
  rw [table, hm.tables_eq, ht]

theorem serves_page {q : PageRequest} {page : Page} (hE : ¬calm → ∀ fault, E fault)
    (ht : Fields.get? tables q.table = some t) (hpage : t.page pageSize q = .ok page) :
    Client.Serves receive (Holds tables pageSize calm) (.page q) (fun answer => answer = page) E := by
  refine serves_of_perform hE fun m hm => ⟨hm, page, ?_, rfl⟩
  show (m.table q.table).bind (fun t => t.page m.pageSize q) = .ok page
  rw [table_eq_ok hm ht, hm.pageSize_eq]
  exact hpage

/-- A batch get answers with the rows of all its keys, or leaves all keys unprocessed. -/
theorem serves_batchGet {name : String} {keys : List Item} (hE : ¬calm → ∀ fault, E fault)
    (ht : Fields.get? tables name = some t) (hkeys : keys.length ≤ maxBatchKeys) :
    Client.Serves receive (Holds tables pageSize calm) (.batchGet name keys)
      (fun answer => answer = ⟨keys.filterMap t.find?, []⟩ ∨ answer = ⟨[], keys⟩ ∧ ¬calm) E := by
  refine serves_of_perform hE fun m hm => ?_
  show Holds tables pageSize calm (m.batchGet name keys).2 ∧
    ∃ answer, (m.batchGet name keys).1 = .ok answer ∧ _
  rw [batchGet, if_neg (Nat.not_lt.mpr hkeys)]
  cases hrounds : m.unprocessedRounds with
  | zero =>
    refine ⟨hm, _, ?_, .inl rfl⟩
    rw [table_eq_ok hm ht]
    rfl
  | succ rounds =>
    have hcalm : ¬calm := fun hcalm => by simp [hm.rounds_eq hcalm] at hrounds
    exact ⟨⟨hm.tables_eq, hm.pageSize_eq, hm.failures_eq, fun h => absurd h hcalm⟩, _, rfl,
      .inr ⟨rfl, hcalm⟩⟩

/-! ## Calm memories -/

/-- What the memory answers if nothing fails. -/
def answer (m : Memory) (r : Request) : Except StoreFault r.Answer :=
  (m.perform r).1

theorem answer_page (m : Memory) (q : PageRequest) :
    m.answer (.page q) = (m.table q.table).bind fun t => t.page m.pageSize q :=
  rfl

theorem IsCalm.holds (hcalm : m.IsCalm) (calm : Prop) : Holds m.tables m.pageSize calm m :=
  ⟨rfl, rfl, fun _ => hcalm.failures_eq, fun _ => hcalm.rounds_eq⟩

theorem IsCalm.receive_eq (hcalm : m.IsCalm) {r : Request} (hr : r.Reads) :
    receive r m = (m.answer r, m) := by
  rw [receive_eq_perform hcalm.failures_eq, answer]
  cases r with
  | page q => rfl
  | batchGet name keys =>
    show m.batchGet name keys = ((m.batchGet name keys).1, m)
    rw [batchGet, hcalm.rounds_eq]
    split <;> rfl
  | transact _ _ | put _ _ | update _ _ _ _ _ | delete _ _ => exact hr.elim

theorem run_eq_value {α : Type} {p : Run α} {w : World Memory} (hcalm : w.store.IsCalm)
    (hp : Run.Asks Request.Reads p) : (p.run.run receive w).1 = Run.value w.store.answer p :=
  (Dialogue.run_eq_value (fun _ => hcalm.receive_eq) hp w rfl).1

/-- Pages are answered at once also if batch gets leave keys unprocessed. -/
theorem run_eq_value_of_isPage {α : Type} {p : Run α} {w : World Memory}
    (hquiet : w.store.failures = []) (hp : Run.Asks Request.IsPage p) :
    (p.run.run receive w).1 = Run.value w.store.answer p := by
  refine (Dialogue.run_eq_value (fun r hr => ?_) hp w rfl).1
  rw [receive_eq_perform hquiet]
  cases r with
  | page q => rfl
  | batchGet _ _ | transact _ _ | put _ _ | update _ _ _ _ _ | delete _ _ => exact hr.elim

/-- What a dialogue ensures of its end is true of its value. -/
theorem value_of_ensures {α : Type} {p : Run α} {Q : α → Prop} (hcalm : m.IsCalm)
    (hp : Run.Asks Request.Reads p)
    (h : Run.Ensures receive (Holds m.tables m.pageSize True) p Q E) :
    match Run.value m.answer p with
    | .ok a => Q a
    | .error fault => E fault := by
  have hend := (h { store := m } (hcalm.holds True)).2
  rwa [run_eq_value (w := { store := m }) hcalm hp] at hend

end Memory

end KeyedQuery
