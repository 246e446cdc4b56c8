import KeyedQuery.Proofs.Traffic.Service

/-!
# Counters of traffic

The acts of tasks that are over are balanced, one task by itself, and the counters are the sums of what all
tasks have counted (`Service.Sound.get_eq`). So the counters of traffic show what the store has been asked,
and what it has answered (`Service.counters_show_traffic`).
-/

namespace KeyedQuery

variable {σ : Type}

namespace Service

open scoped List

variable {s : Service σ}

theorem counted_acts (c : Counter) (tasks : List Task) :
    Act.counted c (tasks.flatMap Task.acts) = (tasks.map fun t => Act.counted c t.acts).sum := by
  induction tasks with
  | nil => rfl
  | cons t tasks ih => rw [List.flatMap_cons, Act.counted_append, ih, List.map_cons, List.sum_cons]

theorem balanced_of_isOver {t : Task} (h : t.isOver)
    (hbooks : t.rest.Balances t.acts) : Act.Balanced t.acts := by
  unfold Task.isOver at h
  split at h
  · rename_i effect hrest
    rw [hrest] at hbooks
    exact hbooks
  all_goals cases h

/-- When all tasks are over, a counter of traffic shows the events of all of them. -/
theorem Sound.get_eq (h : Sound s) (hover : ∀ t ∈ s.tasks, t.isOver) {c : Counter} (hc : c.isTraffic) :
    s.world.stats.get c = UInt64.ofNat (s.tasks.map fun t => c.events t.exchanges).sum := by
  rw [h.stats c, Act.sum_adds, acts, counted_acts]
  refine congrArg (fun counts => UInt64.ofNat (List.sum counts)) (List.map_congr_left fun t ht => ?_)
  exact balanced_of_isOver (hover t ht) (h.books t ht) c hc

theorem exchanges_countP (s : Service σ) (p : Exchange → Bool) :
    s.exchanges.countP p = (s.tasks.map fun t => t.exchanges.countP p).sum :=
  List.countP_flatMap

/-- The store has received the requests of the tasks. -/
theorem Sound.requests_perm (h : Sound s) : s.world.requests.Perm (s.exchanges.map Exchange.request) := by
  have hrequests : s.acts.filterMap Act.request? = s.exchanges.map Exchange.request := by
    rw [acts, exchanges, List.filterMap_flatMap, List.map_flatMap]
    refine congrArg (List.flatMap · s.tasks) (funext fun t => ?_)
    rw [Task.exchanges, Act.exchanges, List.map_filterMap]
    rfl
  exact hrequests ▸ h.requests

/-- A word shows a number that it is wide enough for. -/
def Shows (word : UInt64) (n : Nat) : Prop :=
  n < 2 ^ 64 → word.toNat = n

/-- However reads, writes, transactions and loads of any databases go on next to each other at one store, and
whatever the store answers to them: they can all be brought to their ends, and when they are over, the counters
of traffic show what has happened. The store has received the requests of the tasks. The counters show how many
of them were queries, scans and batches, how many were the same as the one before in their task, which had met
a transient fault, how many were of the keys that the batch before in their task had left unprocessed, and
how many writes of single rows and how many transactions were accepted. -/
theorem counters_show_traffic (client : Client σ) (store : σ) (moves : List Move) :
    let s := (ofStore store).run client moves
    (∃ more, ∀ t ∈ (s.run client more).tasks, t.isOver) ∧
    ((∀ t ∈ s.tasks, t.isOver) →
      s.world.requests.Perm (s.exchanges.map Exchange.request) ∧
      Shows s.world.stats.queryRequests (s.world.requests.countP fun r => r.kind = .query) ∧
      Shows s.world.stats.scanRequests (s.world.requests.countP fun r => r.kind = .scan) ∧
      Shows s.world.stats.batchGetRequests (s.world.requests.countP fun r => r.kind = .batchGet) ∧
      Shows s.world.stats.transientRetries
        (s.tasks.map fun t => countNext Exchange.repeats t.exchanges).sum ∧
      Shows s.world.stats.unprocessedRetries
        (s.tasks.map fun t => countNext Exchange.resumes t.exchanges).sum ∧
      Shows s.world.stats.writes (s.exchanges.countP (Exchange.isAccepted .write)) ∧
      Shows s.world.stats.transactionsCommitted (s.exchanges.countP (Exchange.isAccepted .transaction))) := by
  intro s
  refine ⟨s.exists_over client, fun hover => ?_⟩
  have hsound : Sound s := (sound_ofStore store).run client moves
  have hshows : ∀ c : Counter, c.isTraffic → ∀ n, n = (s.tasks.map fun t => c.events t.exchanges).sum →
      Shows (s.world.stats.get c) n := by
    rintro c hc n rfl hsmall
    rw [hsound.get_eq hover hc]
    exact UInt64.toNat_ofNat_of_lt' hsmall
  have hreceived : ∀ p : Request → Bool, s.world.requests.countP p =
      (s.tasks.map fun t => t.exchanges.countP fun x => p x.request).sum := by
    intro p
    rw [hsound.requests_perm.countP_eq, List.countP_map]
    exact s.exchanges_countP _
  exact ⟨hsound.requests_perm, hshows .queryRequests rfl _ (hreceived _),
    hshows .scanRequests rfl _ (hreceived _), hshows .batchGetRequests rfl _ (hreceived _),
    hshows .transientRetries rfl _ rfl, hshows .unprocessedRetries rfl _ rfl,
    hshows .writes rfl _ (s.exchanges_countP _), hshows .transactionsCommitted rfl _ (s.exchanges_countP _)⟩

/-- Five tasks of users take turns. The put is throttled once, the batch is left unprocessed once, and of the
transaction nothing is sent before its commit. -/
theorem counters_show_traffic_users :
    let user : ModelDef := { name := "user", table := "users", primaryKey := { partition := "id" } }
    let row (n : Int) : Item := [("id", .num (.int n))]
    let store := ((Memory.ofSchema (.ofModels [user]) none).failNext .write
      (.service "ThrottlingException" "Slow down")).leaveUnprocessed 1
    let db : Database := { resolver := (Schema.ofModels [user]).resolver }
    let moves := [.operate db 0 (.create "user" (row 1)), .load db 0 0 "user" (.id (.num (.int 1))),
      .dispatch db 0 "user", .operate db 0 (.stage (.create "user" (row 2))),
      .operate db 0 (.commit "first"), .findOne db { model := "user" }] ++
      (List.replicate 8 ([0, 1, 3, 4].map Move.proceed)).flatten
    let s := (ofStore store).run Memory.receive moves
    (∀ t ∈ s.tasks, t.isOver) ∧ s.world.stats.queryRequests.toNat = 0 ∧
      s.world.stats.scanRequests.toNat = 1 ∧ s.world.stats.batchGetRequests.toNat = 2 ∧
      s.world.stats.transientRetries.toNat = 1 ∧ s.world.stats.unprocessedRetries.toNat = 1 ∧
      s.world.stats.writes.toNat = 1 ∧ s.world.stats.transactionsCommitted.toNat = 1 := by
  intro user row store db moves s
  have hover : ∀ t ∈ s.tasks, t.isOver := by decide +kernel
  have hevents : (s.world.requests.countP fun r => r.kind = .query) = 0 ∧
      (s.world.requests.countP fun r => r.kind = .scan) = 1 ∧
      (s.world.requests.countP fun r => r.kind = .batchGet) = 2 ∧
      (s.tasks.map fun t => countNext Exchange.repeats t.exchanges).sum = 1 ∧
      (s.tasks.map fun t => countNext Exchange.resumes t.exchanges).sum = 1 ∧
      s.exchanges.countP (Exchange.isAccepted .write) = 1 ∧
      s.exchanges.countP (Exchange.isAccepted .transaction) = 1 := by
    decide +kernel
  have hshown := (counters_show_traffic Memory.receive store moves).2 hover
  rw [show (ofStore store).run Memory.receive moves = s from rfl] at hshown
  obtain ⟨hqueries, hscans, hbatches, hrepeated, hresumed, hwritten, hcommitted⟩ := hevents
  obtain ⟨-, hquery, hscan, hbatch, htransient, hunprocessed, hwrites, htransactions⟩ := hshown
  clear_value s
  have hsmall : ∀ m < 3, m < 2 ^ 64 := fun m hm => hm.trans (by norm_num)
  exact ⟨hover, (hquery (hqueries ▸ hsmall 0 (by decide))).trans hqueries,
    (hscan (hscans ▸ hsmall 1 (by decide))).trans hscans,
    (hbatch (hbatches ▸ hsmall 2 (by decide))).trans hbatches,
    (htransient (hrepeated ▸ hsmall 1 (by decide))).trans hrepeated,
    (hunprocessed (hresumed ▸ hsmall 1 (by decide))).trans hresumed,
    (hwrites (hwritten ▸ hsmall 1 (by decide))).trans hwritten,
    (htransactions (hcommitted ▸ hsmall 1 (by decide))).trans hcommitted⟩

end Service

end KeyedQuery
