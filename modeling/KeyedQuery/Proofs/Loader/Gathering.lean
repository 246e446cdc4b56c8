import KeyedQuery.Loader.Basic
import KeyedQuery.Proofs.Grouping
import Mathlib.Data.List.Induction

/-!
# Gathered loads

`LoadEntry.gather` says what entries some registrations come to: one for each of their keys, in
the order in which the keys came, each with all that wait for it. Adding waiters one after another
comes to just that (`LoadEntry.gather_concat`), so the entries of a batch are read off the
registrations behind them: every key once (`LoadEntry.nodup_gather`), somebody waiting for it
(`LoadEntry.waiters_ne_nil`), and everybody waiting for some key (`LoadEntry.waiters_gather_perm`).
-/

namespace KeyedQuery

/-- Of three lists in a row, the last two change places. -/
theorem perm_append_right_comm {α : Type} (xs ys zs : List α) :
    (xs ++ ys ++ zs).Perm (xs ++ zs ++ ys) := by
  rw [List.append_assoc, List.append_assoc]
  exact List.perm_append_comm.append_left xs

/-- A load that waits for the row of a key. -/
structure Registration where
  /-- The load. -/
  waiter : Nat
  /-- The model. -/
  model : String
  /-- The key. -/
  key : Item

/-- The group of the key. -/
def Registration.id (r : Registration) : String :=
  LoadEntry.idOf r.key

namespace LoadEntry

variable {rs : List Registration} {entries : List LoadEntry} {e : LoadEntry} {waiter : Nat}
  {key : Item}

/-- The loads among some registrations that wait for a key, in the order in which they came. -/
def waitersOf (rs : List Registration) (id : String) : List Nat :=
  (rs.filter fun r => r.id = id).map Registration.waiter

/-- The entries of some registrations: the first of each key stands for it. -/
def gather (rs : List Registration) : List LoadEntry :=
  (distinctBy Registration.id rs).map fun first => ⟨first.id, first.key, waitersOf rs first.id⟩

/-! ## One waiter more -/

theorem addWaiter_of_new (h : ∀ e ∈ entries, e.id ≠ idOf key) :
    addWaiter waiter key entries = entries ++ [⟨idOf key, key, [waiter]⟩] := by
  induction entries with
  | nil => rfl
  | cons e rest ih =>
    obtain ⟨he, hrest⟩ := List.forall_mem_cons.mp h
    rw [addWaiter, if_neg he, ih hrest, List.cons_append]

theorem addWaiter_of_known (hn : (entries.map LoadEntry.id).Nodup)
    (h : idOf key ∈ entries.map LoadEntry.id) :
    addWaiter waiter key entries = entries.map fun e =>
      if e.id = idOf key then { e with waiters := e.waiters ++ [waiter] } else e := by
  induction entries with
  | nil => cases h
  | cons e rest ih =>
    obtain ⟨hfirst, hrest⟩ := List.nodup_cons.mp hn
    rw [addWaiter, List.map_cons]
    by_cases he : e.id = idOf key
    · -- the later entries are of other keys
      have hothers : ∀ f ∈ rest, f.id ≠ idOf key := fun f hf heq =>
        hfirst (he.trans heq.symm ▸ List.mem_map_of_mem hf)
      rw [if_pos he, if_pos he, List.map_congr_left fun f hf => if_neg (hothers f hf), List.map_id']
    · have hmem : idOf key ∈ rest.map LoadEntry.id :=
        (List.mem_cons.mp h).resolve_left (Ne.symm he)
      rw [if_neg he, if_neg he, ih hrest hmem]

theorem addWaiter_waiters_perm (waiter : Nat) (key : Item) (entries : List LoadEntry) :
    ((addWaiter waiter key entries).flatMap LoadEntry.waiters).Perm
      (entries.flatMap LoadEntry.waiters ++ [waiter]) := by
  induction entries with
  | nil => exact .refl _
  | cons e rest ih =>
    unfold addWaiter
    split
    · rw [List.flatMap_cons, List.flatMap_cons]
      exact perm_append_right_comm _ _ _
    · rw [List.flatMap_cons, List.flatMap_cons, List.append_assoc]
      exact ih.append_left _

/-! ## All that wait -/

theorem ids_gather (rs : List Registration) :
    (gather rs).map LoadEntry.id = (distinctBy Registration.id rs).map Registration.id := by
  rw [gather, List.map_map]
  rfl

/-- No key is listed twice. -/
theorem nodup_gather (rs : List Registration) : ((gather rs).map LoadEntry.id).Nodup := by
  rw [ids_gather]
  exact List.pairwise_map.mpr (pairwise_distinctBy rs)

theorem mem_ids_gather {id : String} :
    id ∈ (gather rs).map LoadEntry.id ↔ id ∈ rs.map Registration.id := by
  rw [ids_gather]
  constructor
  · intro h
    obtain ⟨r, hr, rfl⟩ := List.mem_map.mp h
    exact List.mem_map_of_mem (mem_of_mem_distinctBy hr)
  · intro h
    obtain ⟨r, hr, rfl⟩ := List.mem_map.mp h
    obtain ⟨first, hfirst, hid⟩ : ∃ first ∈ distinctBy Registration.id rs, first.id = r.id :=
      exists_mem_distinctBy hr
    exact hid ▸ List.mem_map_of_mem hfirst

/-- Every listed key has somebody who waits for it. -/
theorem waiters_ne_nil (h : e ∈ gather rs) : e.waiters ≠ [] := by
  obtain ⟨first, hfirst, rfl⟩ := List.mem_map.mp h
  have hmem : first ∈ rs.filter fun r => r.id = first.id :=
    List.mem_filter.mpr ⟨mem_of_mem_distinctBy hfirst, decide_eq_true rfl⟩
  exact List.ne_nil_of_mem (List.mem_map_of_mem (f := Registration.waiter) hmem)

/-- Who is listed under a key has asked for it. -/
theorem exists_of_mem_waiters (h : e ∈ gather rs) (hw : waiter ∈ e.waiters) :
    ∃ r ∈ rs, r.waiter = waiter ∧ r.id = e.id := by
  obtain ⟨first, -, rfl⟩ := List.mem_map.mp h
  obtain ⟨r, hr, rfl⟩ := List.mem_map.mp hw
  obtain ⟨hmem, hid⟩ := List.mem_filter.mp hr
  exact ⟨r, hmem, rfl, of_decide_eq_true hid⟩

theorem waitersOf_concat (rs : List Registration) (r : Registration) (id : String) :
    waitersOf (rs ++ [r]) id = waitersOf rs id ++ if r.id = id then [r.waiter] else [] := by
  rw [waitersOf, List.filter_append, List.map_append]
  by_cases hid : r.id = id
  · rw [List.filter_cons_of_pos (by simpa using hid), if_pos hid]
    rfl
  · rw [List.filter_cons_of_neg (by simpa using hid), if_neg hid]
    rfl

/-- Gathering goes one registration after another. -/
theorem gather_concat (rs : List Registration) (r : Registration) :
    gather (rs ++ [r]) = addWaiter r.waiter r.key (gather rs) := by
  by_cases hknown : r.id ∈ rs.map Registration.id
  · rw [addWaiter_of_known (nodup_gather rs) (mem_ids_gather.mpr hknown), gather,
      distinctBy_concat, if_pos hknown, List.append_nil, gather, List.map_map]
    refine List.map_congr_left fun first _ => ?_
    rw [waitersOf_concat]
    by_cases hid : r.id = first.id
    · rw [if_pos hid]
      exact (if_pos hid.symm).symm
    · rw [if_neg hid, List.append_nil]
      exact (if_neg (Ne.symm hid)).symm
  · have hothers : ∀ other ∈ rs, other.id ≠ r.id := fun other hother heq =>
      hknown (heq ▸ List.mem_map_of_mem hother)
    have hnew : ∀ e ∈ gather rs, e.id ≠ idOf r.key := fun e he heq =>
      hknown (mem_ids_gather.mp (List.mem_map.mpr ⟨e, he, heq⟩))
    have hnobody : waitersOf rs r.id = [] := by
      rw [waitersOf, List.filter_eq_nil_iff.mpr fun other hother => by
        simpa using hothers other hother, List.map_nil]
    rw [addWaiter_of_new hnew, gather, distinctBy_concat, if_neg hknown, List.map_append,
      List.map_singleton, waitersOf_concat, if_pos rfl, hnobody]
    refine congrArg (· ++ _) (List.map_congr_left fun first hfirst => ?_)
    rw [waitersOf_concat, if_neg (hothers first (mem_of_mem_distinctBy hfirst)).symm,
      List.append_nil]

/-- Up to order, those who wait are those who have registered. -/
theorem waiters_gather_perm (rs : List Registration) :
    ((gather rs).flatMap LoadEntry.waiters).Perm (rs.map Registration.waiter) := by
  induction rs using List.reverseRec with
  | nil => exact .refl _
  | append_singleton rs r ih =>
    rw [gather_concat, List.map_append]
    exact (addWaiter_waiters_perm r.waiter r.key (gather rs)).trans (ih.append_right _)

end LoadEntry

end KeyedQuery
