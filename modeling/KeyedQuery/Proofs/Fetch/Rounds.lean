import KeyedQuery.Proofs.Fetch.Attempts
import KeyedQuery.Proofs.Fetch.Batch

/-!
# Rounds of a batch

A store may leave keys of a batch unprocessed, and these are asked for again in the next round
(`BatchCourse`). Nothing is lost or asked for twice on the way: what has been processed and what is left are
the keys of the batch (`BatchCourse.conserves`). A fetch of some keys goes from batch to batch up to the first
one of which keys are left (`BatchFetch`), and `RetryConfig.batchGet_rounds` says what it does against a store
that may split the keys of each request as it likes.
-/

namespace KeyedQuery

variable {σ : Type}

/-- One round of a batch. -/
structure BatchRound where
  /-- The keys that are asked for. -/
  keys : List Item
  /-- Those of them that the store processes. -/
  processed : List Item
  /-- What it answers. -/
  answer : BatchAnswer
  splits : (processed ++ answer.unprocessed).Perm keys

theorem BatchRound.length_unprocessed_le (round : BatchRound) :
    round.answer.unprocessed.length ≤ round.keys.length := by
  rw [← round.splits.length_eq, List.length_append]
  exact Nat.le_add_left _ _

/-- The rounds of a batch, from its keys to those that are left at the end. A round asks for what the round
before it has left. -/
inductive BatchCourse : List Item → List BatchRound → List Item → Prop where
  | last (round : BatchRound) : BatchCourse round.keys [round] round.answer.unprocessed
  | more (round : BatchRound) {rounds : List BatchRound} {left : List Item}
      (hleft : round.answer.unprocessed ≠ [])
      (hrounds : BatchCourse round.answer.unprocessed rounds left) :
      BatchCourse round.keys (round :: rounds) left

namespace BatchCourse

variable {keys left : List Item} {rounds : List BatchRound}

/-- The keys of a batch are processed in one of the rounds or left at the end. -/
theorem conserves (h : BatchCourse keys rounds left) :
    (rounds.flatMap BatchRound.processed ++ left).Perm keys := by
  induction h with
  | last round => simpa using round.splits
  | more round _ _ ih =>
    rw [List.flatMap_cons, List.append_assoc]
    exact (ih.append_left round.processed).trans round.splits

/-- No round asks for nothing, and none for more than the first one. -/
theorem keys_bounds (h : BatchCourse keys rounds left) (hkeys : keys ≠ []) :
    ∀ round ∈ rounds, round.keys ≠ [] ∧ round.keys.length ≤ keys.length := by
  induction h with
  | last round =>
    intro r hr
    rw [List.mem_singleton.mp hr]
    exact ⟨hkeys, Nat.le_refl _⟩
  | more round hleft _ ih =>
    intro r hr
    rcases List.mem_cons.mp hr with rfl | hr
    · exact ⟨hkeys, Nat.le_refl _⟩
    · exact ⟨(ih hleft r hr).1, Nat.le_trans (ih hleft r hr).2 round.length_unprocessed_le⟩

end BatchCourse

/-- The batches of a fetch with the rounds of each, up to the first one of which keys are left when the
attempts are used up, and what the fetch ends with. -/
inductive BatchFetch (attempts : Nat) :
    List (List Item) → List (List BatchRound) → Except Fault (List (List Item)) → Prop where
  | done : BatchFetch attempts [] [] (.ok [])
  | served {keys : List Item} {batches : List (List Item)} {rounds : List BatchRound}
      {courses : List (List BatchRound)} {result : Except Fault (List (List Item))}
      (hcourse : BatchCourse keys rounds []) (hrounds : rounds.length ≤ attempts)
      (hrest : BatchFetch attempts batches courses result) :
      BatchFetch attempts (keys :: batches) (rounds :: courses)
        (result.map (rounds.flatMap (fun round => round.answer.items) :: ·))
  | stuck {keys left : List Item} (batches : List (List Item)) {rounds : List BatchRound}
      (hcourse : BatchCourse keys rounds left) (hleft : left ≠ []) (hrounds : rounds.length = attempts) :
      BatchFetch attempts (keys :: batches) [rounds] (.error (.unprocessedKeys left.length attempts))

namespace BatchFetch

variable {attempts : Nat} {batches : List (List Item)} {courses : List (List BatchRound)}
  {result : Except Fault (List (List Item))}

/-- The rounds of a fetch belong to its batches, as many to each as there are attempts at most. -/
theorem exists_course (h : BatchFetch attempts batches courses result) :
    ∀ rounds ∈ courses, rounds.length ≤ attempts ∧
      ∃ keys ∈ batches, ∃ left, BatchCourse keys rounds left := by
  induction h with
  | done => simp
  | served hcourse hrounds _ ih =>
    intro rounds hmem
    rcases List.mem_cons.mp hmem with rfl | hmem
    · exact ⟨hrounds, _, List.mem_cons_self, _, hcourse⟩
    · obtain ⟨hle, keys, hkeys, hcourse⟩ := ih rounds hmem
      exact ⟨hle, keys, List.mem_cons_of_mem _ hkeys, hcourse⟩
  | stuck batches hcourse _ hrounds =>
    intro rounds hmem
    rw [List.mem_singleton.mp hmem]
    exact ⟨Nat.le_of_eq hrounds, _, List.mem_cons_self, _, hcourse⟩

/-- The keys of all batches are processed or left over, and none is left over when the fetch succeeds. -/
theorem conserves (h : BatchFetch attempts batches courses result) : ∃ leftover,
    (courses.flatten.flatMap BatchRound.processed ++ leftover).Perm batches.flatten ∧
      ∀ parts, result = .ok parts → leftover = [] := by
  induction h with
  | done => exact ⟨[], by simp, fun _ _ => rfl⟩
  | @served keys _ rounds courses result hcourse _ _ ih =>
    obtain ⟨leftover, hperm, hnone⟩ := ih
    refine ⟨leftover, ?_, fun parts hparts => ?_⟩
    · have hkeys : (rounds.flatMap BatchRound.processed).Perm keys := by
        simpa using hcourse.conserves
      rw [List.flatten_cons, List.flatMap_append, List.append_assoc, List.flatten_cons]
      exact hkeys.append hperm
    · cases result with
      | error fault => cases hparts
      | ok rest => exact hnone rest rfl
  | @stuck keys left batches rounds hcourse _ _ =>
    refine ⟨left ++ batches.flatten, ?_, fun parts hparts => by cases hparts⟩
    rw [List.flatten_singleton, ← List.append_assoc, List.flatten_cons]
    exact hcourse.conserves.append_right _

/-- A fetch has all its batches served, or it ends at the first one of which keys are left. -/
theorem served_or_stuck (h : BatchFetch attempts batches courses result) :
    (List.Forall₂ (fun keys rounds => BatchCourse keys rounds []) batches courses ∧
      result = .ok (courses.map fun rounds => rounds.flatMap fun round => round.answer.items)) ∨
    ∃ before keys after served rounds left, batches = before ++ keys :: after ∧
      courses = served ++ [rounds] ∧
      List.Forall₂ (fun keys rounds => BatchCourse keys rounds []) before served ∧
      BatchCourse keys rounds left ∧ left ≠ [] ∧ rounds.length = attempts ∧
      result = .error (.unprocessedKeys left.length attempts) := by
  induction h with
  | done => exact .inl ⟨.nil, rfl⟩
  | @served keys _ rounds _ _ hcourse _ _ ih =>
    obtain ⟨hserved, rfl⟩ | ⟨before, stuckKeys, after, served, last, left, rfl, rfl, hserved, hlast,
      hleft, hlength, rfl⟩ := ih
    · exact .inl ⟨.cons hcourse hserved, rfl⟩
    · exact .inr ⟨keys :: before, stuckKeys, after, rounds :: served, last, left, rfl, rfl,
        .cons hcourse hserved, hlast, hleft, hlength, rfl⟩
  | @stuck keys left batches rounds hcourse hleft hrounds =>
    exact .inr ⟨[], keys, batches, [], rounds, left, rfl, rfl, .nil, hcourse, hleft, hrounds, rfl⟩

end BatchFetch

/-! ## Stores that split batches -/

/-- A store that answers each batch get of some keys of a table, a hundred at most, and reports exactly those
that it has not processed. -/
def Client.Splits (client : Client σ) (I : σ → Prop) (table : String) : Prop :=
  ∀ keys, keys ≠ [] → keys.length ≤ maxBatchKeys → client.Serves I (.batchGet table keys)
    (fun answer => ∃ processed, (processed ++ answer.unprocessed).Perm keys) (fun _ => False)

/-- A memory for which no failure has been scripted leaves all keys or none. -/
theorem Memory.splits {tables : Fields Table} {name : String} {t : Table}
    (ht : Fields.get? tables name = some t) :
    Client.Splits receive (fun m => m.tables = tables ∧ m.failures = []) name := by
  rintro keys - hkeys m ⟨htables, hfailures⟩
  have htable : m.table name = .ok t := by rw [table, htables, ht]
  rw [receive_eq_perform hfailures]
  simp only [perform, batchGet, if_neg (Nat.not_lt.mpr hkeys)]
  cases hrounds : m.unprocessedRounds with
  | zero =>
    rw [htable]
    exact ⟨⟨htables, hfailures⟩, keys, .of_eq (List.append_nil keys)⟩
  | succ rounds => exact ⟨⟨htables, hfailures⟩, [], .rfl⟩

namespace RetryConfig

/-- What is done for one round. -/
def roundActs (table : String) (round : BatchRound) : List Act :=
  [.count .batchGetRequests 1, .exchange ⟨.batchGet table round.keys, .ok round.answer⟩]

/-- What is done for a round after the first one: it is counted and waited for. -/
def laterActs (retry : RetryConfig) (table : String) (round : BatchRound) (i : Nat) : List Act :=
  .count .unprocessedRetries 1 :: .wait (min (retry.baseDelay.toNat * 2 ^ i) retry.maxDelay.toNat) ::
    roundActs table round

/-- What is done for the rounds of a batch. -/
def courseActs (retry : RetryConfig) (table : String) : List BatchRound → List Act
  | [] => []
  | first :: more =>
    roundActs table first ++ more.zipIdx.flatMap fun (round, i) => retry.laterActs table round i

section

variable (retry : RetryConfig) {client : Client σ} {I : σ → Prop} {table : String}

/-- A store that splits batches is asked once in each round. -/
theorem account_round (hclient : client.Splits I table) {keys : List Item} (hne : keys ≠ [])
    (hle : keys.length ≤ maxBatchKeys) {s : σ} (hs : I s) :
    ∃ (round : BatchRound) (s' : σ), I s' ∧ round.keys = keys ∧
      (retry.request (.batchGet table keys)).account client s =
        ⟨.ok round.answer, roundActs table round, s'⟩ := by
  obtain ⟨hs', hserved⟩ := hclient keys hne hle s hs
  cases hanswer : (client (.batchGet table keys) s).1 with
  | error fault =>
    rw [hanswer] at hserved
    exact hserved.elim
  | ok answer =>
    rw [hanswer] at hserved
    obtain ⟨processed, hsplits⟩ := hserved
    exact ⟨⟨keys, processed, answer, hsplits⟩, _, hs', rfl, retry.account_request_of_ok hanswer⟩

/-- After some rounds, what is left of a batch takes some rounds more, and all that are left if it is not
served in the end. -/
theorem account_batchAfter (hclient : client.Splits I table) : ∀ left k keys s, keys ≠ [] →
    keys.length ≤ maxBatchKeys → I s → ∃ first more unprocessed s', I s' ∧
    BatchCourse keys (first :: more) unprocessed ∧ more.length ≤ left ∧
      (unprocessed ≠ [] → more.length = left) ∧
      (retry.batchAfter table k keys left).account client s =
        ⟨if unprocessed.isEmpty then .ok ((first :: more).flatMap fun round => round.answer.items)
          else .error (.unprocessedKeys unprocessed.length (k + left + 1)),
          roundActs table first ++
            (more.zipIdx k).flatMap (fun (round, i) => retry.laterActs table round i), s'⟩ := by
  intro left
  induction left with
  | zero =>
    intro k keys s hne hsize hs
    obtain ⟨round, s', hs', rfl, hround⟩ := retry.account_round hclient hne hsize hs
    refine ⟨round, [], round.answer.unprocessed, s', hs', .last round, Nat.le_refl 0, fun _ => rfl, ?_⟩
    rw [batchAfter, Run.account_bind_of_ok hround]
    split
    · simp [Run.account_pure, Account.behind]
    · rfl
  | succ left ih =>
    intro k keys s hne hsize hs
    obtain ⟨round, s', hs', rfl, hround⟩ := retry.account_round hclient hne hsize hs
    rw [batchAfter, Run.account_bind_of_ok hround]
    by_cases hserved : round.answer.unprocessed.isEmpty
    · refine ⟨round, [], round.answer.unprocessed, s', hs', .last round, Nat.zero_le _, fun h => ?_, ?_⟩
      · exact absurd (List.isEmpty_iff.mp hserved) h
      · rw [if_pos hserved, if_pos hserved]
        simp [Run.account_pure, Account.behind]
    · have hleft : round.answer.unprocessed ≠ [] := fun h => hserved (List.isEmpty_iff.mpr h)
      obtain ⟨first, more, unprocessed, s'', hs'', hcourse, hle, hall, haccount⟩ :=
        ih (k + 1) round.answer.unprocessed s' hleft
          (Nat.le_trans round.length_unprocessed_le hsize) hs'
      refine ⟨round, first :: more, unprocessed, s'', hs'', .more round hleft hcourse,
        Nat.succ_le_succ hle, fun h => congrArg (· + 1) (hall h), ?_⟩
      rw [if_neg hserved, Run.account_count_bind, Run.account_wait_bind, retry.delay_eq,
        Run.account_bind_pure _ haccount, List.zipIdx_cons, List.flatMap_cons]
      have hattempts : k + 1 + left + 1 = k + (left + 1) + 1 := by omega
      rw [hattempts]
      split <;> rfl

/-- Batch after batch is fetched. -/
theorem account_batches (hclient : client.Splits I table) : ∀ batches s,
    (∀ keys ∈ batches, keys ≠ [] ∧ keys.length ≤ maxBatchKeys) → I s → ∃ courses result s',
    BatchFetch (retry.repetitions + 1) batches courses result ∧
      (batches.mapM fun batch => retry.batchAfter table 0 batch retry.repetitions).account client s =
        ⟨result, courses.flatMap (retry.courseActs table), s'⟩ := by
  intro batches
  induction batches with
  | nil => exact fun s _ _ => ⟨[], .ok [], s, .done, rfl⟩
  | cons keys batches ih =>
    intro s hbatches hs
    obtain ⟨hne, hsize⟩ := hbatches keys List.mem_cons_self
    obtain ⟨first, more, left, s', hs', hcourse, hle, hall, haccount⟩ :=
      retry.account_batchAfter hclient retry.repetitions 0 keys s hne hsize hs
    rw [List.mapM_cons]
    cases left with
    | nil =>
      obtain ⟨courses, result, s'', hfetch, hrest⟩ :=
        ih s' (fun keys hkeys => hbatches keys (List.mem_cons_of_mem _ hkeys)) hs'
      refine ⟨(first :: more) :: courses, _, s'', .served hcourse (Nat.succ_le_succ hle) hfetch, ?_⟩
      rw [Run.account_bind_of_ok haccount, Run.account_bind_pure _ hrest]
      rfl
    | cons key left =>
      refine ⟨[first :: more], _, s', .stuck batches hcourse (List.cons_ne_nil _ _)
        (congrArg (· + 1) (hall (List.cons_ne_nil _ _))), ?_⟩
      rw [Run.account_bind_of_error haccount, Nat.zero_add]
      simp only [List.flatMap_cons, List.flatMap_nil, List.append_nil]
      rfl

end

/-! ## Fetches -/

/-- Keys with one text are sent once. -/
theorem nodup_text_distinctKeys (keys : List Item) :
    ((distinctKeys keys).map fun key => (Value.map key).text).Nodup :=
  List.pairwise_map.mpr ((pairwise_distinctBy keys).imp fun hne heq => hne (congrArg ("j:" ++ ·) heq))

theorem exists_mem_distinctKeys {keys : List Item} {key : Item} (h : key ∈ keys) :
    (Value.map key).text ∈ (distinctKeys keys).map fun key => (Value.map key).text := by
  obtain ⟨other, hother, hgroup⟩ : ∃ other ∈ distinctKeys keys, (Value.map other).groupKey =
    (Value.map key).groupKey := exists_mem_distinctBy h
  exact List.mem_map.mpr ⟨other, hother, (String.append_right_inj "j:").mp hgroup⟩

section

variable (retry : RetryConfig) {client : Client σ} {I : σ → Prop} {table : String}

/-- A store that may split the keys of each batch get as it likes is asked for some keys at a time, a hundred
at most, and never for none. Each round but the first one of a batch is counted, and waited for twice as long
as the one before, up to the longest wait. No key, by its text, is processed twice. Either all batches are
served: then each key is processed once, and the result is what was answered, in order. Or there is a first
batch of which keys are left when all attempts are used up: then this is the fault, and nothing is sent for
the batches behind it. -/
theorem batchGet_rounds (hclient : client.Splits I table) (hattempts : 0 < retry.maxAttempts)
    (keys : List Item) {s : σ} (hs : I s) :
    let ended := (retry.batchGet table keys).account client s
    let attempts := retry.maxAttempts.toNat
    ∃ courses : List (List BatchRound),
      let rounds := courses.flatten
      let texts := (rounds.flatMap BatchRound.processed).map fun key => (Value.map key).text
      ended.acts = courses.flatMap (retry.courseActs table) ∧
      (keys = [] → ended.acts = []) ∧
      (∀ round ∈ rounds, round.keys ≠ [] ∧ round.keys.length ≤ 100) ∧
      (∀ course ∈ courses, course.length ≤ attempts) ∧
      (∀ round ∈ rounds, ∀ key ∈ round.processed, key ∈ keys) ∧ texts.Nodup ∧
      ((List.Forall₂ (fun batch course => BatchCourse batch course [])
          (chunksOf 100 (distinctKeys keys)) courses ∧
        (∀ key ∈ keys, texts.count (Value.map key).text = 1) ∧
        ended.result = .ok (rounds.flatMap fun round => round.answer.items)) ∨
      ∃ before batch after served course left,
        chunksOf 100 (distinctKeys keys) = before ++ batch :: after ∧ courses = served ++ [course] ∧
        List.Forall₂ (fun batch course => BatchCourse batch course []) before served ∧
        BatchCourse batch course left ∧ left ≠ [] ∧ course.length = attempts ∧
        ended.result = .error (.unprocessedKeys left.length attempts)) := by
  intro ended attempts
  have hbatches : ∀ batch ∈ chunksOf 100 (distinctKeys keys),
      batch ≠ [] ∧ batch.length ≤ maxBatchKeys :=
    fun batch hbatch => ⟨ne_nil_of_mem_chunksOf hbatch, length_le_of_mem_chunksOf (by decide) hbatch⟩
  obtain ⟨courses, result, s', hfetch, haccount⟩ :=
    retry.account_batches hclient (chunksOf 100 (distinctKeys keys)) s hbatches hs
  have hattempts : retry.repetitions + 1 = attempts :=
    Nat.sub_add_cancel (UInt32.lt_iff_toNat_lt.mp hattempts)
  have hended : ended = ⟨result.map List.flatten, courses.flatMap (retry.courseActs table), s'⟩ :=
    Run.account_bind_pure List.flatten haccount
  rw [hattempts] at hfetch
  obtain ⟨leftover, hperm, hnone⟩ := hfetch.conserves
  rw [flatten_chunksOf] at hperm
  have htexts := (hperm.map fun key => (Value.map key).text).nodup_iff.mpr (nodup_text_distinctKeys keys)
  rw [List.map_append] at htexts
  refine ⟨courses, congrArg Account.acts hended, fun hkeys => ?_, fun round hround => ?_,
    fun course hcourse => (hfetch.exists_course course hcourse).1, fun round hround key hkey => ?_,
    htexts.of_append_left, ?_⟩
  · subst hkeys
    have hcourses : courses = [] := List.eq_nil_iff_forall_not_mem.mpr fun course hcourse => by
      obtain ⟨-, batch, hbatch, -⟩ := hfetch.exists_course course hcourse
      simp [distinctKeys, distinctBy, distinctBy.go, chunksOf] at hbatch
    rw [hended, hcourses]
    rfl
  · obtain ⟨course, hcourse, hround⟩ := List.mem_flatten.mp hround
    obtain ⟨-, batch, hbatch, left, hcourse⟩ := hfetch.exists_course course hcourse
    obtain ⟨hne, hle⟩ := hcourse.keys_bounds (hbatches batch hbatch).1 round hround
    exact ⟨hne, Nat.le_trans hle (hbatches batch hbatch).2⟩
  · exact mem_of_mem_distinctBy (hperm.mem_iff.mp
      (List.mem_append_left _ (List.mem_flatMap.mpr ⟨round, hround, hkey⟩)))
  · obtain ⟨hserved, rfl⟩ | ⟨before, batch, after, served, course, left, hcut, hcourses, hserved,
      hcourse, hleft, hlength, rfl⟩ := hfetch.served_or_stuck
    · refine .inl ⟨hserved, fun key hkey => ?_, ?_⟩
      · rw [hnone _ rfl, List.append_nil] at hperm
        have hprocessed := (hperm.map fun key => (Value.map key).text).mem_iff.mpr
          (exists_mem_distinctKeys hkey)
        exact List.count_eq_one_of_mem htexts.of_append_left hprocessed
      · have hitems : (courses.map fun rounds => rounds.flatMap fun round => round.answer.items).flatten =
            courses.flatten.flatMap fun round => round.answer.items := by
          rw [← List.flatMap_def, List.flatten_eq_flatMap, List.flatMap_assoc]
          rfl
        exact (congrArg Account.result hended).trans (congrArg Except.ok hitems)
    · exact .inr ⟨before, batch, after, served, course, left, hcut, hcourses, hserved, hcourse,
        hleft, hlength, congrArg Account.result hended⟩

/-- Two keys, one of them given twice, of which nothing is processed in the first of two rounds. -/
theorem batchGet_rounds_users :
    let user : ModelDef := { name := "user", table := "users", primaryKey := { partition := "id" } }
    let ada : Item := [("id", .num (.int 1)), ("name", .str "ada")]
    let bob : Item := [("id", .num (.int 2)), ("name", .str "bob")]
    let key : Int → Item := fun id => [("id", .num (.int id))]
    let m := ((Memory.ofSchema (.ofModels [user]) none).seed "users" [.map ada, .map bob]).leaveUnprocessed 1
    let retry : RetryConfig := { maxAttempts := 2 }
    let ended := (retry.batchGet "users" [key 2, key 1, key 2]).account Memory.receive m
    Client.Splits Memory.receive (fun m' => m'.tables = m.tables ∧ m'.failures = []) "users" ∧
      0 < retry.maxAttempts ∧ ended.result = .ok [bob, ada] ∧
      ∃ courses : List (List BatchRound), ended.acts = courses.flatMap (retry.courseActs "users") ∧
        (∀ course ∈ courses, course.length ≤ 2) ∧
        ∀ id ∈ [1, 2], ((courses.flatten.flatMap BatchRound.processed).map fun key =>
          (Value.map key).text).count (Value.map (key id)).text = 1 := by
  intro user ada bob key m retry ended
  have hclient : Client.Splits Memory.receive (fun m' => m'.tables = m.tables ∧ m'.failures = []) "users" :=
    Memory.splits rfl
  have hresult : ended.result = .ok [bob, ada] := by decide +kernel
  obtain ⟨courses, hacts, -, -, hlengths, -, -,
    ⟨-, honce, -⟩ | ⟨_, _, _, _, _, _, -, -, -, -, -, -, hstuck⟩⟩ :=
    retry.batchGet_rounds hclient (by decide) [key 2, key 1, key 2] (s := m) ⟨rfl, rfl⟩
  · refine ⟨hclient, by decide, hresult, courses, hacts, hlengths, fun id hid => honce (key id) ?_⟩
    rcases List.mem_pair.mp hid with rfl | rfl <;> simp
  · exact nomatch hstuck.symm.trans hresult

end

end RetryConfig

end KeyedQuery
