import KeyedQuery.Fetch.Batch
import KeyedQuery.Proofs.Plan.Values
import KeyedQuery.Proofs.Store.Unique

/-!
# Fetching rows by key

A batch get delivers the rows of its keys, however often the store leaves keys unprocessed in
between (`RetryConfig.ensures_batchGet`). It fails only if failures have been scripted.
-/

namespace KeyedQuery

theorem length_le_of_mem_chunksOf {α : Type} {n : Nat} (hn : 0 < n) {xs part : List α}
    (h : part ∈ chunksOf n xs) : part.length ≤ n := by
  fun_induction chunksOf n xs with
  | case1 => cases h
  | case2 x rest ih =>
    rcases List.mem_cons.mp h with rfl | hrest
    · rw [List.length_cons, List.length_take]
      omega
    · exact ih hrest

theorem ne_nil_of_mem_chunksOf {α : Type} {n : Nat} {xs part : List α}
    (h : part ∈ chunksOf n xs) : part ≠ [] := by
  fun_induction chunksOf n xs with
  | case1 => cases h
  | case2 x rest ih =>
    rcases List.mem_cons.mp h with rfl | hrest
    · exact List.cons_ne_nil _ _
    · exact ih hrest

namespace RetryConfig

variable {tables : Fields Table} {pageSize : Option Nat} {calm : Prop} {t : Table} {name : String}

theorem ensures_batchAfter (retry : RetryConfig) {keys : List Item}
    (ht : Fields.get? tables name = some t) (hkeys : keys.length ≤ maxBatchKeys) :
    ∀ left rounds, Run.Ensures Memory.receive (Memory.Holds tables pageSize calm)
      (retry.batchAfter name rounds keys left) (fun items => items = keys.filterMap t.find?)
      (fun _ => ¬calm) := by
  have hserves : Client.Serves Memory.receive (Memory.Holds tables pageSize calm)
      (.batchGet name keys)
      (fun answer => answer = ⟨keys.filterMap t.find?, []⟩ ∨ answer = ⟨[], keys⟩ ∧ ¬calm)
      (fun _ => ¬calm) :=
    Memory.serves_batchGet (fun hcalm _ => hcalm) ht hkeys
  have hrequest := Run.Ensures.request retry hserves
  intro left
  induction left with
  | zero =>
    intro rounds
    rw [batchAfter]
    refine hrequest.bind fun answer hanswer => ?_
    rcases hanswer with rfl | ⟨rfl, hcalm⟩
    · exact .pure rfl
    · cases keys with
      | nil => exact .pure rfl
      | cons key keys => exact .throw hcalm
  | succ left ih =>
    intro rounds
    rw [batchAfter]
    refine hrequest.bind fun answer hanswer => ?_
    rcases hanswer with rfl | ⟨rfl, hcalm⟩
    · exact .pure rfl
    · cases keys with
      | nil => exact .pure rfl
      | cons key keys =>
        refine Run.Ensures.count.bind fun _ _ => Run.Ensures.wait.bind fun _ _ => ?_
        refine (ih (rounds + 1)).bind fun more hmore => .pure ?_
        rw [hmore]
        rfl

/-- The rows of the distinct keys are delivered. -/
theorem ensures_batchGet (retry : RetryConfig) (keys : List Item)
    (ht : Fields.get? tables name = some t) :
    Run.Ensures Memory.receive (Memory.Holds tables pageSize calm) (retry.batchGet name keys)
      (fun items => items = (distinctKeys keys).filterMap t.find?) (fun _ => ¬calm) := by
  have hparts : Run.Ensures Memory.receive (Memory.Holds tables pageSize calm)
      ((chunksOf maxBatchKeys (distinctKeys keys)).mapM fun batch =>
        retry.batchAfter name 0 batch retry.repetitions)
      (fun parts => List.Forall₂ (fun batch items => items = batch.filterMap t.find?)
        (chunksOf maxBatchKeys (distinctKeys keys)) parts) (fun _ => ¬calm) :=
    .mapM fun batch hbatch => ensures_batchAfter retry ht
      (length_le_of_mem_chunksOf (by decide) hbatch) _ _
  refine hparts.bind fun parts hforall => .pure ?_
  have hflatten : ∀ {batches : List (List Item)} {parts : List (List Item)},
      List.Forall₂ (fun batch items => items = batch.filterMap t.find?) batches parts →
      parts.flatten = batches.flatten.filterMap t.find? := by
    intro batches parts h
    induction h with
    | nil => rfl
    | cons h _ ih => rw [List.flatten_cons, List.flatten_cons, List.filterMap_append, h, ih]
  rw [hflatten hforall, flatten_chunksOf]

end RetryConfig

/-! ## Keys of one attribute -/

variable {t : Table} {field : String}

theorem Table.isKey_single (hkeys : t.keys.attributes = [field]) (v : Value) :
    t.IsKey [(field, v)] where
  carries k hk := by
    rw [hkeys, List.mem_singleton] at hk
    rw [hk, Fields.get?_cons, if_pos rfl]
    rfl
  keyOf_eq := by
    rw [keyOf, hkeys]
    simp [Fields.get?_cons, Fields.ofList, Fields.merge, Fields.insert]

theorem hasKey_single (item : Item) (v : Value) :
    item.hasKey [(field, v)] = fieldAgrees field v item := by
  simp [Item.hasKey, fieldAgrees]

/-- Distinct values are distinct keys. -/
theorem distinctKeys_distinct (field : String) (xs : List Value) :
    RetryConfig.distinctKeys ((Value.distinct xs).map fun v => [(field, v)]) =
      (Value.distinct xs).map fun v => [(field, v)] := by
  refine distinctBy_eq_self (List.pairwise_map.mpr ?_)
  refine (pairwise_distinctBy xs).imp fun {v w} hne heq => hne ?_
  have htext : (Value.map [(field, v)]).text = (Value.map [(field, w)]).text :=
    (String.append_right_inj "j:").mp heq
  have hmap := Value.text_injective htext
  simp only [Value.map.injEq, List.cons.injEq, Prod.mk.injEq, true_and, and_true] at hmap
  rw [hmap]

/-- The rows of the distinct values of a key attribute, value by value. -/
theorem Table.WellKeyed.filterMap_find?_eq (h : t.WellKeyed) (hkeys : t.keys.attributes = [field])
    (xs : List Value) :
    (RetryConfig.distinctKeys ((Value.distinct xs).map fun v => [(field, v)])).filterMap t.find? =
      (Value.distinct xs).flatMap fun v => t.items.filter (fieldAgrees field v) := by
  rw [distinctKeys_distinct, List.filterMap_map, List.filterMap_eq_flatMap_toList]
  refine List.flatMap_congr fun v _ => ?_
  show (t.find? [(field, v)]).toList = _
  rw [h.unique.toList_find? (isKey_single hkeys v)]
  exact List.filter_congr fun item _ => hasKey_single item v

/-- The rows of the distinct values of a key attribute are those whose attribute agrees with one of
them. -/
theorem Table.WellKeyed.covers_filterMap_find? (h : t.WellKeyed)
    (hkeys : t.keys.attributes = [field]) (xs : List Value) :
    Covers ((RetryConfig.distinctKeys ((Value.distinct xs).map fun v => [(field, v)])).filterMap
        t.find?) t.items (fun item => (Value.distinct xs).any fun v => fieldAgrees field v item)
      (∀ x ∈ xs, x.IsPlain) := by
  rw [h.filterMap_find?_eq hkeys]
  exact covers_flatMap_filter fun hplain =>
    pairwise_fieldAgrees (fun x hx => (hplain x hx).isExact) field

end KeyedQuery
