import KeyedQuery.Loader.Schedule
import KeyedQuery.Proofs.Traffic.Operations

/-!
# Services

A `Service` is all that goes on at one store with one set of counters: tasks, any number of which are under
way at a time, with the transactions and the loaders that they work for. A task begins when an operation is
asked for or when a loader dispatches a batch, and it goes on by one act at a time, in any order with the
others (`Service.run`). When it is over, the transaction is as it has left it, or the batch is complete.

The record of the world is the acts of all tasks together, and what is left of each of them leads to balanced
books (`Service.Sound.run`). A task that goes on alone does what its dialogue does when it is run
(`Service.exists_finish`), so all that has begun can be brought to its end (`Service.exists_over`).
-/

namespace KeyedQuery

variable {α σ : Type} {client : Client σ}

/-! ## Tasks -/

/-- What is to be done when a task is over. -/
inductive Effect where
  /-- Nothing. -/
  | nothing
  /-- A transaction is kept in its new state. -/
  | keep (slot : Nat) (tx : Transaction)
  /-- A batch of a loader is completed. -/
  | complete (slot : Nat) (batch : LoadBatch) (result : Except Fault (Fields Item))

/-- What is to be done when an operation is over. One that may change the transaction leaves it behind. -/
def Operation.effect (slot : Nat) (tx : Transaction) : Operation → Effect
  | .stage _ | .commit _ | .abort => .keep slot tx
  | .create _ _ | .update _ _ _ | .delete _ _ | .find _ | .look _ => .nothing

/-- Something that is being done. -/
structure Task where
  /-- What it has done, in order. -/
  acts : List Act := []
  /-- What it is still to do. -/
  rest : Dialogue Effect

namespace Task

/-- There is nothing left to do. -/
def isOver (t : Task) : Bool :=
  match t.rest with
  | .done _ => true
  | .ask _ _ | .sleep _ _ | .tally _ _ _ => false

/-- The requests of the task with their answers. -/
def exchanges (t : Task) : List Exchange :=
  Act.exchanges t.acts

end Task

/-- The first act of what is left of a dialogue. -/
def Dialogue.act? (client : Client σ) : Dialogue α → σ → Option Act
  | .done _, _ => none
  | .ask r _, s => some (.exchange ⟨r, (client r s).1⟩)
  | .sleep ms _, _ => some (.wait ms)
  | .tally c n _, _ => some (.count c n)

/-- The task when it has done the first thing of what is left. -/
def Task.advance (client : Client σ) (t : Task) (w : World σ) : Task where
  acts := t.acts ++ (t.rest.act? client w.store).toList
  rest := (t.rest.step client w).1

/-! ## Services -/

/-- All that goes on at a store with one set of counters. -/
structure Service (σ : Type) where
  /-- The store and the counters. -/
  world : World σ
  /-- The open transactions, by their numbers. -/
  transactions : Nat → Transaction := fun _ => {}
  /-- The loaders, by their numbers. -/
  loaders : Nat → Loader := fun _ => {}
  /-- All tasks that have begun, in order. -/
  tasks : List Task := []

/-- What can happen next. -/
inductive Move where
  /-- An operation is asked for, with an open transaction at hand. -/
  | operate (db : Database) (slot : Nat) (op : Operation)
  /-- The first row of a query is asked for. -/
  | findOne (db : Database) (q : FindQuery)
  /-- The number of rows of a query is asked for. -/
  | count (db : Database) (q : FindQuery)
  /-- A load comes to a loader, and waits there unless its key is refused. -/
  | load (db : Database) (slot waiter : Nat) (model : String) (asked : LoadKey)
  /-- A loader dispatches a model. -/
  | dispatch (db : Database) (slot : Nat) (model : String)
  /-- A task goes on. -/
  | proceed (task : Nat)

namespace Service

/-- Nothing has happened yet, and all counters are at zero. -/
def ofStore (store : σ) : Service σ where
  world := { store }

/-- Have a loader in a new state. -/
def withLoader (s : Service σ) (slot : Nat) (loader : Loader) : Service σ :=
  { s with loaders := Function.update s.loaders slot loader }

/-- Do what is to be done at the end of a task. -/
def apply (s : Service σ) : Effect → Service σ
  | .nothing => s
  | .keep slot tx => { s with transactions := Function.update s.transactions slot tx }
  | .complete slot batch result => s.withLoader slot ((s.loaders slot).complete batch result)

/-- Do what is to be done if that is all that is left. -/
def deliver (s : Service σ) : Dialogue Effect → Service σ
  | .done effect => s.apply effect
  | .ask _ _ | .sleep _ _ | .tally _ _ _ => s

/-- Begin a task. -/
def begin (s : Service σ) (p : Dialogue Effect) : Service σ :=
  { s with tasks := s.tasks ++ [(⟨[], p⟩ : Task)] }.deliver p

/-- Let a load wait at a loader, or end it at once if its key is refused. -/
def load (db : Database) (s : Service σ) (slot waiter : Nat) (model : String) (asked : LoadKey) :
    Service σ :=
  match db.loadKey model asked with
  | .ok key => s.withLoader slot ((s.loaders slot).register model waiter key)
  | .error fault => s.withLoader slot ((s.loaders slot).refuse waiter fault)

/-- Begin to fetch what is pending for a model. -/
def dispatch (db : Database) (s : Service σ) (slot : Nat) (model : String) : Service σ :=
  match (s.loaders slot).dispatch? model with
  | some (batch, loader) =>
    (s.withLoader slot loader).begin (.complete slot batch <$> db.loadBatch batch)
  | none => s

/-- Have a task done the first thing of what is left of it. -/
def advance (client : Client σ) (s : Service σ) (i : Nat) (t : Task) : Service σ :=
  { s with
    world := (t.rest.step client s.world).2
    tasks := s.tasks.set i (t.advance client s.world) }

/-- Let a task go on, unless it is over. -/
def proceed (client : Client σ) (s : Service σ) (i : Nat) : Service σ :=
  match s.tasks[i]? with
  | some t => if t.isOver then s else (s.advance client i t).deliver (t.advance client s.world).rest
  | none => s

/-- Let something happen. -/
def perform (client : Client σ) (s : Service σ) : Move → Service σ
  | .operate db slot op => s.begin ((op.effect slot ·) <$> op.perform db (s.transactions slot))
  | .findOne db q => s.begin ((fun _ => .nothing) <$> (db.findOne q).run)
  | .count db q => s.begin ((fun _ => .nothing) <$> (db.count q).run)
  | .load db slot waiter model asked => s.load db slot waiter model asked
  | .dispatch db slot model => s.dispatch db slot model
  | .proceed i => s.proceed client i

/-- Let things happen one after the other. -/
def run (client : Client σ) (s : Service σ) (moves : List Move) : Service σ :=
  moves.foldl (perform client) s

/-- What all tasks have done, task by task. -/
def acts (s : Service σ) : List Act :=
  s.tasks.flatMap Task.acts

/-- The requests of all tasks with their answers, task by task. -/
def exchanges (s : Service σ) : List Exchange :=
  s.tasks.flatMap Task.exchanges

end Service

/-! ## What every move keeps -/

namespace Dialogue

variable {p : Dialogue α} {Q : List Act → α → Prop} {acts : List Act}

/-- One step leads on to the ends that are stated. -/
theorem Ends.step (h : p.Ends Q acts) (client : Client σ) (w : World σ) :
    (p.step client w).1.Ends Q (acts ++ (p.act? client w.store).toList) := by
  cases p with
  | done a => exact (List.append_nil acts).symm ▸ h
  | ask r next => exact h _
  | sleep ms next => exact h
  | tally c n next => exact h

/-- One step is recorded as the act that it is. -/
theorem records_step (client : Client σ) (p : Dialogue α) (w : World σ) :
    w.Records (p.act? client w.store).toList (p.step client w).2 := by
  cases p with
  | done a => exact .nil w
  | ask r next => exact .exchange (.nil _)
  | sleep ms next => exact .wait (.nil _)
  | tally c n next => exact .count (.nil _)

theorem run_step (client : Client σ) (p : Dialogue α) (w : World σ) :
    (p.step client w).1.run client (p.step client w).2 = p.run client w := by
  cases p <;> rfl

/-- A run does its first act, and then the others. -/
theorem acts_step (client : Client σ) (p : Dialogue α) (w : World σ) :
    (p.account client w.store).acts = (p.act? client w.store).toList ++
      ((p.step client w).1.account client (p.step client w).2.store).acts := by
  cases p <;> rfl

end Dialogue

namespace Service

open scoped List

variable {s s' : Service σ}

/-- The record of the world is what all tasks have done together, and what is left of a task leads to
balanced books. -/
structure Sound (s : Service σ) : Prop where
  requests : s.world.requests.Perm (s.acts.filterMap Act.request?)
  stats : ∀ c, s.world.stats.get c = (s.acts.map (Act.adds c)).sum
  books : ∀ t ∈ s.tasks, t.rest.Balances t.acts

theorem sound_ofStore (store : σ) : Sound (ofStore store) where
  requests := .refl _
  stats c := by cases c <;> rfl
  books _ ht := by cases ht

theorem deliver_eq (s : Service σ) (p : Dialogue Effect) :
    (s.deliver p).world = s.world ∧ (s.deliver p).tasks = s.tasks := by
  cases p with
  | done effect => cases effect <;> exact ⟨rfl, rfl⟩
  | ask r next => exact ⟨rfl, rfl⟩
  | sleep ms next => exact ⟨rfl, rfl⟩
  | tally c n next => exact ⟨rfl, rfl⟩

/-- A task that goes on adds its acts to those of all tasks. -/
theorem acts_set_perm {tasks : List Task} {i : Nat} {t : Task} (ht : tasks[i]? = some t)
    (more : List Act) (rest : Dialogue Effect) :
    ((tasks.set i ⟨t.acts ++ more, rest⟩).flatMap Task.acts).Perm (tasks.flatMap Task.acts ++ more) := by
  obtain ⟨hi, rfl⟩ := List.getElem?_eq_some_iff.mp ht
  obtain ⟨before, after, htasks, -, hset⟩ : ∃ before after, tasks = before ++ tasks[i] :: after ∧
      before.length = i ∧ tasks.set i ⟨tasks[i].acts ++ more, rest⟩ =
        before ++ ⟨tasks[i].acts ++ more, rest⟩ :: after := List.exists_of_set hi
  have hbefore : tasks.flatMap Task.acts =
      before.flatMap Task.acts ++ (tasks[i].acts ++ after.flatMap Task.acts) := by
    conv_lhs => rw [htasks]
    rw [List.flatMap_append, List.flatMap_cons]
  rw [hset, hbefore, List.flatMap_append, List.flatMap_cons, List.append_assoc, List.append_assoc,
    List.append_assoc]
  exact (List.perm_append_comm.append_left _).append_left _

namespace Sound

/-- Transactions and loaders do not matter. -/
theorem of_eq (h : Sound s) (hworld : s'.world = s.world) (htasks : s'.tasks = s.tasks) : Sound s' where
  requests := by rw [hworld, acts, htasks]; exact h.requests
  stats c := by rw [hworld, acts, htasks]; exact h.stats c
  books := htasks ▸ h.books

theorem deliver (h : Sound s) (p : Dialogue Effect) : Sound (s.deliver p) :=
  h.of_eq (s.deliver_eq p).1 (s.deliver_eq p).2

theorem begin (h : Sound s) {p : Dialogue Effect} (hp : p.Balances []) :
    Sound (s.begin p) := by
  refine Sound.deliver ⟨?_, fun c => ?_, fun t ht => ?_⟩ p
  · simpa [acts] using h.requests
  · simpa [acts] using h.stats c
  · rcases List.mem_append.mp ht with ht | ht
    · exact h.books t ht
    · exact List.mem_singleton.mp ht ▸ hp

theorem advance (h : Sound s) (client : Client σ) {i : Nat} {t : Task} (ht : s.tasks[i]? = some t) :
    Sound (s.advance client i t) := by
  have hrecords := t.rest.records_step client s.world
  have hacts : (s.advance client i t).acts.Perm (s.acts ++ (t.rest.act? client s.world.store).toList) :=
    acts_set_perm ht _ _
  refine ⟨?_, fun c => ?_, fun u hu => ?_⟩
  · calc
      (s.advance client i t).world.requests
        = s.world.requests ++ (t.rest.act? client s.world.store).toList.filterMap Act.request? :=
          hrecords.requests
      _ ~ s.acts.filterMap Act.request? ++
            (t.rest.act? client s.world.store).toList.filterMap Act.request? := h.requests.append_right _
      _ = (s.acts ++ (t.rest.act? client s.world.store).toList).filterMap Act.request? :=
          List.filterMap_append.symm
      _ ~ (s.advance client i t).acts.filterMap Act.request? := hacts.symm.filterMap _
  · calc
      (s.advance client i t).world.stats.get c
        = (s.acts.map (Act.adds c)).sum + ((t.rest.act? client s.world.store).toList.map (Act.adds c)).sum :=
          h.stats c ▸ hrecords.stats c
      _ = ((s.acts ++ (t.rest.act? client s.world.store).toList).map (Act.adds c)).sum := by
          rw [List.map_append, List.sum_append]
      _ = ((s.advance client i t).acts.map (Act.adds c)).sum := (hacts.symm.map _).sum_eq
  · rcases List.mem_or_eq_of_mem_set hu with hu | rfl
    · exact h.books u hu
    · exact (h.books t (List.mem_of_getElem? ht)).step client s.world

theorem proceed (h : Sound s) (client : Client σ) (i : Nat) : Sound (s.proceed client i) := by
  unfold Service.proceed
  split
  · rename_i t ht
    split
    · exact h
    · exact (h.advance client ht).deliver _
  · exact h

theorem perform (h : Sound s) (client : Client σ) (move : Move) : Sound (s.perform client move) := by
  cases move with
  | operate db slot op => exact h.begin ((op.balances_perform db _ Act.settled_nil).map _)
  | findOne db q => exact h.begin (((db.settles_findOne q).balances Act.settled_nil).map _)
  | count db q => exact h.begin (((db.settles_count q).balances Act.settled_nil).map _)
  | load db slot waiter model asked =>
    change Sound (s.load db slot waiter model asked)
    unfold Service.load
    split <;> exact h.of_eq rfl rfl
  | dispatch db slot model =>
    change Sound (s.dispatch db slot model)
    unfold Service.dispatch
    split
    · rename_i batch loader hdispatch
      have htaken : Sound (s.withLoader slot loader) := h.of_eq rfl rfl
      exact htaken.begin ((db.balances_loadBatch batch Act.settled_nil).map _)
    · exact h
  | proceed i => exact h.proceed client i

theorem run (h : Sound s) (client : Client σ) (moves : List Move) : Sound (s.run client moves) := by
  induction moves generalizing s with
  | nil => exact h
  | cons move moves ih => exact ih (h.perform client move)

end Sound

/-! ## Ends -/

theorem run_append (client : Client σ) (s : Service σ) (moves more : List Move) :
    s.run client (moves ++ more) = (s.run client moves).run client more :=
  List.foldl_append

/-- The service after a task has ended alone, with the world and the effect of the run of what was left. -/
def finish (client : Client σ) (s : Service σ) (i : Nat) (t : Task) : Service σ :=
  let (effect, world) := t.rest.run client s.world
  let acts := t.acts ++ (t.rest.account client s.world.store).acts
  { s with world, tasks := s.tasks.set i ⟨acts, .done effect⟩ }.apply effect

theorem finish_advance (client : Client σ) (s : Service σ) (i : Nat) (t : Task) :
    (s.advance client i t).finish client i (t.advance client s.world) = s.finish client i t := by
  unfold finish
  simp only [advance, Task.advance, Dialogue.run_step, List.set_set, List.append_assoc]
  rw [← Dialogue.acts_step]

theorem deliver_of_not_isOver {t : Task} (h : t.isOver = false) (s : Service σ) :
    s.deliver t.rest = s := by
  unfold Task.isOver at h
  split at h
  · cases h
  all_goals
    rename_i hrest
    rw [hrest]
    rfl

/-- A task that goes on alone comes to its end, and has then done what its dialogue does in a run. -/
theorem exists_finish (client : Client σ) (i : Nat) (p : Dialogue Effect) :
    ∀ {s : Service σ} {t : Task}, s.tasks[i]? = some t → t.rest = p →
      ∃ n, (s.deliver t.rest).run client (List.replicate n (.proceed i)) = s.finish client i t := by
  have hstep : ∀ {s : Service σ} {t : Task}, s.tasks[i]? = some t → t.isOver = false →
      (∃ n, ((s.advance client i t).deliver (t.advance client s.world).rest).run client
        (List.replicate n (.proceed i)) = (s.advance client i t).finish client i (t.advance client s.world)) →
      ∃ n, (s.deliver t.rest).run client (List.replicate n (.proceed i)) = s.finish client i t := by
    rintro s t ht hopen ⟨n, hn⟩
    have hproceed : s.perform client (.proceed i) =
        (s.advance client i t).deliver (t.advance client s.world).rest := by
      simp [perform, proceed, ht, hopen]
    refine ⟨n + 1, ?_⟩
    rw [deliver_of_not_isOver hopen, List.replicate_succ, run, List.foldl_cons, hproceed,
      ← finish_advance]
    exact hn
  have hset : ∀ {s : Service σ} {t : Task}, s.tasks[i]? = some t →
      (s.advance client i t).tasks[i]? = some (t.advance client s.world) := fun ht =>
    List.getElem?_set_self (List.getElem?_eq_some_iff.mp ht).1
  induction p with
  | done effect =>
    intro s t ht hrest
    refine ⟨0, ?_⟩
    obtain ⟨acts, rest⟩ := t
    obtain rfl : rest = .done effect := hrest
    obtain ⟨hi, hsame⟩ := List.getElem?_eq_some_iff.mp ht
    simp [run, deliver, finish, Dialogue.run, Dialogue.account, ← hsame]
  | ask r next ih =>
    intro s t ht hrest
    exact hstep ht (by rw [Task.isOver, hrest]) (ih _ (hset ht) (by rw [Task.advance, hrest]; rfl))
  | sleep ms next ih =>
    intro s t ht hrest
    exact hstep ht (by rw [Task.isOver, hrest]) (ih (hset ht) (by rw [Task.advance, hrest]; rfl))
  | tally c n next ih =>
    intro s t ht hrest
    exact hstep ht (by rw [Task.isOver, hrest]) (ih (hset ht) (by rw [Task.advance, hrest]; rfl))

/-- Whatever has begun can be brought to its end. -/
theorem exists_over (client : Client σ) (s : Service σ) :
    ∃ moves, ∀ t ∈ (s.run client moves).tasks, t.isOver := by
  generalize hopen : s.tasks.countP (fun t => !t.isOver) = n
  induction n generalizing s with
  | zero =>
    refine ⟨[], fun t ht => ?_⟩
    simpa using List.countP_eq_zero.mp hopen t ht
  | succ n ih =>
    have hsome : 0 < s.tasks.countP fun t => !t.isOver := hopen ▸ Nat.succ_pos n
    obtain ⟨t, ht, hgoes⟩ := List.countP_pos_iff.mp hsome
    obtain ⟨i, hi, rfl⟩ := List.getElem_of_mem ht
    have hgoes : s.tasks[i].isOver = false := by simpa using hgoes
    obtain ⟨m, hm⟩ := exists_finish client i _ (List.getElem?_eq_getElem hi) rfl
    rw [deliver_of_not_isOver hgoes] at hm
    have hfewer : (s.finish client i s.tasks[i]).tasks.countP (fun t => !t.isOver) = n := by
      rw [show (s.finish client i s.tasks[i]).tasks = _ from (deliver_eq _ (.done _)).2,
        List.countP_set hi, hopen, hgoes]
      rfl
    obtain ⟨moves, hmoves⟩ := ih _ hfewer
    exact ⟨List.replicate m (.proceed i) ++ moves, by rwa [run_append, hm]⟩

end Service

end KeyedQuery
