import KeyedQuery.Loader.Schedule
import KeyedQuery.Proofs.Database.RowKeys
import KeyedQuery.Proofs.Fetch.Limits

/-!
# What a batch of loads gets

In a calm store the rows of a batch are fetched at once, without a wait (`Database.exists_run_loadBatch`).
The store finds the row of a key by agreement of values, and the rows that come back are filed under the
keys that they have themselves. A load looks under the key that it has asked for, so it gets the row of
that key if the row's own key is the very same (`Table.own?`), and otherwise nothing
(`Table.get?_rowsByKey`).
-/

namespace KeyedQuery

/-! ## Rows under their own keys -/

/-- Different keys have different groups. -/
theorem LoadEntry.idOf_injective : Function.Injective LoadEntry.idOf := by
  intro a b h
  have htext : (Value.map a).text = (Value.map b).text := (String.append_right_inj "j:").mp h
  exact Value.map.inj (Value.text_injective htext)

/-- Keys are sent once each. -/
theorem RetryConfig.mem_distinctKeys {key : Item} {keys : List Item} :
    key ∈ distinctKeys keys ↔ key ∈ keys := by
  refine ⟨mem_of_mem_distinctBy, fun hmem => ?_⟩
  obtain ⟨first, hfirst, hgroup⟩ : ∃ first ∈ distinctKeys keys,
      LoadEntry.idOf first = LoadEntry.idOf key :=
    exists_mem_distinctBy hmem
  exact LoadEntry.idOf_injective hgroup ▸ hfirst

namespace Table

variable {t : Table} {key row : Item}

/-- The row of a key, if the row's own key is the very same. -/
def own? (t : Table) (key : Item) : Option Item :=
  (t.find? key).filter fun row => t.keyOf row = key

theorem own?_eq_find?_iff :
    t.own? key = t.find? key ↔ ∀ row, t.find? key = some row → t.keyOf row = key := by
  unfold own?
  cases t.find? key with
  | none => simp
  | some row => simp [Option.filter]

/-- The row whose own key is the given one is the row of that key. -/
theorem WellKeyed.own?_eq_some_iff (h : t.WellKeyed) (hkey : t.IsKey key) :
    t.own? key = some row ↔ row ∈ t.items ∧ t.keyOf row = key := by
  rw [own?, Option.filter_eq_some_iff, h.find?_eq_some_iff hkey, decide_eq_true_iff]
  refine and_congr_left fun heq => and_iff_left ?_
  rw [← heq]
  exact t.sameKey_refl row

/-- The rows of some keys are filed under the keys that they have themselves. -/
theorem mem_filed_iff {keys : List Item} {id : String} :
    (id, row) ∈ ((RetryConfig.distinctKeys keys).filterMap t.find?).filterMap (fun row =>
      (t.keys.keyOf row).toOption.map fun key => (LoadEntry.idOf key, row)) ↔
    (∃ key ∈ keys, t.find? key = some row) ∧ t.keys.IsIn row ∧ LoadEntry.idOf (t.keyOf row) = id := by
  have hown : ∀ found, (t.keys.keyOf found).toOption.map (fun key => (LoadEntry.idOf key, found)) =
      some (id, row) ↔ found = row ∧ t.keys.IsIn row ∧ LoadEntry.idOf (t.keyOf row) = id := by
    intro found
    rcases t.keyOf_cases found with ⟨hok, hin⟩ | ⟨a, ha, hnone, herror⟩
    · rw [hok]
      simp only [Except.toOption, Option.map_some, Option.some.injEq, Prod.mk.injEq]
      constructor
      · rintro ⟨rfl, rfl⟩
        exact ⟨rfl, hin, rfl⟩
      · rintro ⟨rfl, -, rfl⟩
        exact ⟨rfl, rfl⟩
    · rw [herror]
      refine iff_of_false nofun ?_
      rintro ⟨rfl, hin, -⟩
      rw [hin a ha] at hnone
      cases hnone
  simp only [List.mem_filterMap, hown, RetryConfig.mem_distinctKeys]
  constructor
  · rintro ⟨found, hfound, rfl, hrest⟩
    exact ⟨hfound, hrest⟩
  · rintro ⟨hfound, hrest⟩
    exact ⟨row, hfound, rfl, hrest⟩

/-- Fetched rows are found under their own keys. Of the rows with one key only one is in the table, so it
does not matter which of them counts. -/
theorem WellKeyed.get?_rowsByKey (h : t.WellKeyed) (hkey : t.IsKey key) (hin : t.keys.IsIn key)
    {keys : List Item} (hmem : key ∈ keys) :
    Fields.get? (Database.rowsByKey t.keys ((RetryConfig.distinctKeys keys).filterMap t.find?))
      (LoadEntry.idOf key) = t.own? key := by
  have hrows : ∀ row, Fields.get? (Database.rowsByKey t.keys
      ((RetryConfig.distinctKeys keys).filterMap t.find?)) (LoadEntry.idOf key) = some row →
      row ∈ t.items ∧ t.keyOf row = key := by
    intro row hget
    obtain ⟨⟨_, -, hfind⟩, -, hid⟩ :=
      mem_filed_iff.mp ((Fields.get?_merge_eq_some hget).resolve_right nofun)
    exact ⟨List.mem_of_find?_eq_some hfind, LoadEntry.idOf_injective hid⟩
  refine Option.ext fun row => ?_
  rw [h.own?_eq_some_iff hkey]
  refine ⟨hrows row, fun ⟨hrow, hown⟩ => ?_⟩
  have hfind : t.find? key = some row :=
    (h.find?_eq_some_iff hkey).mpr ⟨hrow, hown ▸ t.sameKey_refl row⟩
  have hrowIn : t.keys.IsIn row := by
    intro a ha
    have hvalue := hin a ha
    rw [← hown, t.get?_keyOf, if_pos ha] at hvalue
    exact hvalue
  have hpair := mem_filed_iff.mpr ⟨⟨key, hmem, hfind⟩, hrowIn, congrArg LoadEntry.idOf hown⟩
  obtain ⟨other, hother⟩ := Option.isSome_iff_exists.mp (Fields.isSome_get?_iff.mpr
    ((Fields.mem_names_ofList _ _).mpr (Fields.mem_names_of_mem hpair)))
  obtain ⟨hotherRow, hotherOwn⟩ := hrows other hother
  have hsame : t.sameKey other row = true := by
    rw [Table.sameKey, hown, ← hotherOwn]
    exact t.sameKey_refl other
  rw [show Database.rowsByKey t.keys _ = Fields.ofList _ from rfl, hother,
    h.eq_of_sameKey hotherRow hrow hsame]

end Table

/-! ## Batches in a calm store -/

namespace RetryConfig

variable {m : Memory} {t : Table} {name : String}

/-- In a calm store a batch get delivers the rows of the distinct keys at once. -/
theorem prompt_batchGet (retry : RetryConfig) (hcalm : m.IsCalm)
    (ht : Fields.get? m.tables name = some t) (keys : List Item) :
    Run.IsPrompt m.answer (retry.batchGet name keys) := by
  have hanswer : ∀ keys : List Item, keys.length ≤ maxBatchKeys →
      m.answer (.batchGet name keys) = .ok ⟨keys.filterMap t.find?, []⟩ := by
    intro keys hlength
    show (m.batchGet name keys).1 = _
    unfold Memory.batchGet Memory.table
    rw [if_neg (Nat.not_lt.mpr hlength), hcalm.rounds_eq, ht]
    rfl
  have hbatch : ∀ left keys, keys.length ≤ maxBatchKeys →
      Run.IsPrompt m.answer (retry.batchAfter name 0 keys left) := by
    intro left keys hlength
    have hvalue : Run.value m.answer (retry.request (.batchGet name keys)) = _ :=
      Run.value_request retry _
    rw [hanswer keys hlength] at hvalue
    cases left with
    | zero =>
      unfold batchAfter
      refine (Run.IsPrompt.request retry (hanswer keys hlength)).bind fun answer ha => ?_
      obtain rfl := Except.ok.inj (hvalue.symm.trans ha)
      exact .pure _
    | succ left =>
      unfold batchAfter
      refine (Run.IsPrompt.request retry (hanswer keys hlength)).bind fun answer ha => ?_
      obtain rfl := Except.ok.inj (hvalue.symm.trans ha)
      exact .pure _
  exact (Run.IsPrompt.mapM fun batch hmem =>
    hbatch _ batch (length_le_of_mem_chunksOf (by decide) hmem)).bind fun _ _ => .pure _

end RetryConfig

namespace Database

variable {db : Database} {m : Memory} {t : Table} {name : String}

/-- In a calm store a batch is fetched without a wait, whether it is run to its end or to its first
wait, and the store stays as it is. -/
theorem exists_run_loadBatch (batch : LoadBatch) (hcalm : m.IsCalm)
    (hname : db.resolver.table batch.model = .ok name)
    (hkeys : db.resolver.primaryKey batch.model = .ok t.keys)
    (ht : Fields.get? m.tables name = some t) {w : World Memory} (hw : w.store = m) :
    ∃ world : World Memory, world.store = m ∧ world.places = w.places ∧
      let found := rowsByKey t.keys ((RetryConfig.distinctKeys
        (batch.entries.map LoadEntry.key)).filterMap t.find?)
      (db.loadBatch batch).run Memory.receive w = (.ok found, world) ∧
      (db.loadBatch batch).runToWait Memory.receive w = (.inl (.ok found), world) := by
  have hfetch : db.fetchBatch batch =
      db.config.retry.batchGet name (batch.entries.map LoadEntry.key) >>= fun items =>
        pure (rowsByKey t.keys items) := by
    unfold fetchBatch
    rw [hname, hkeys]
    rfl
  have hprompt : (db.loadBatch batch).IsPrompt m.answer := by
    refine Dialogue.IsPrompt.bind (p := (db.fetchBatch batch).run) ?_ trivial
    rw [hfetch]
    exact Run.IsPrompt.bind (db.config.retry.prompt_batchGet hcalm ht _) fun _ _ => .pure _
  have hasks : (db.loadBatch batch).Asks Request.Reads := by
    refine Dialogue.Asks.bind (p := (db.fetchBatch batch).run) ?_ fun _ => trivial
    rw [hfetch]
    exact Run.Asks.bind ((db.config.retry.asks_batchGet none name _).mono
      fun _ => Request.Within.reads) fun _ => .pure _
  have hvalue : (db.loadBatch batch).value m.answer = .ok (rowsByKey t.keys
      ((RetryConfig.distinctKeys (batch.entries.map LoadEntry.key)).filterMap t.find?)) := by
    have hload : (db.loadBatch batch).value m.answer = Run.value m.answer (db.fetchBatch batch) :=
      Dialogue.value_bind (db.fetchBatch batch).run _
    rw [hload, hfetch, Run.value_bind, db.config.retry.value_batchGet hcalm ht]
    rfl
  have hrun := hprompt.exists_run (fun _ => hcalm.receive_eq) hasks w hw
  rw [hvalue] at hrun
  exact hrun

end Database

end KeyedQuery
