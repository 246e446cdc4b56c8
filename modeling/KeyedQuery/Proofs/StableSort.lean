import KeyedQuery.StableSort
import Mathlib.Data.List.Perm.Basic

/-!
# What stable sorting keeps

Sorting permutes (`stableSort_perm`). By a rank it keeps the order of elements of one rank
(`pairwise_stableSort`), and by a relation that implies a transitive one it puts the elements in the order
of that one, if elements that stay where they are stand in it (`pairwise_stableSort_of_trans`). A list in
which nothing has to precede what is before it stays as it is, and one in which everything has to is turned
around (`stableSort_eq_self`, `stableSort_eq_reverse`). If the relation orders the elements up to ties, it
makes no difference whether elements are dropped before sorting or after it
(`OrdersUpToTies.stableSort_filter`).

The sorted part is given with its last element first (`insertBack`), so relations between its elements are
the other way round.
-/

namespace KeyedQuery

variable {α : Type} {precedes : α → α → Bool} {x : α} {xs sorted : List α}

theorem insertBack_perm (precedes : α → α → Bool) (x : α) :
    ∀ xs : List α, (insertBack precedes x xs).Perm (x :: xs)
  | [] => .refl _
  | y :: rest => by
    rw [insertBack]
    split
    · exact ((insertBack_perm precedes x rest).cons y).trans (.swap x y rest)
    · exact .refl _

theorem mem_insertBack {y : α} : y ∈ insertBack precedes x xs ↔ y = x ∨ y ∈ xs :=
  (insertBack_perm precedes x xs).mem_iff.trans List.mem_cons

theorem stableSort_perm (precedes : α → α → Bool) (xs : List α) :
    (stableSort precedes xs).Perm xs := by
  have hfold : ∀ ys sorted : List α,
      (ys.foldl (fun sorted x => insertBack precedes x sorted) sorted).Perm (sorted ++ ys) := by
    intro ys
    induction ys with
    | nil => simp
    | cons y ys ih =>
      intro sorted
      refine (ih _).trans (((insertBack_perm precedes y sorted).append_right ys).trans ?_)
      exact List.perm_middle.symm
  exact (List.reverse_perm _).trans (by simpa using hfold xs [])

/-! ## Order -/

/-- Sorting puts elements in an order if inserting one does, behind elements that stood before it. -/
theorem pairwise_stableSort_of {S R : α → α → Prop}
    (hinsert : ∀ (x : α) (sorted : List α), x :: sorted ⊆ xs →
      (sorted.Pairwise fun b a => R a b) → (∀ y ∈ sorted, S y x) →
        (insertBack precedes x sorted).Pairwise fun b a => R a b)
    (h : xs.Pairwise S) : (stableSort precedes xs).Pairwise R := by
  have hfold : ∀ ys sorted : List α, sorted ++ ys ⊆ xs → ys.Pairwise S →
      (∀ y ∈ sorted, ∀ x ∈ ys, S y x) → (sorted.Pairwise fun b a => R a b) →
      (ys.foldl (fun sorted x => insertBack precedes x sorted) sorted).Pairwise fun b a => R a b := by
    intro ys
    induction ys with
    | nil => exact fun _ _ _ _ hsorted => hsorted
    | cons x ys ih =>
      intro sorted hsubset hys hbefore hsorted
      obtain ⟨hx, hrest⟩ := List.pairwise_cons.mp hys
      have hnext : x :: sorted ⊆ xs := fun y hy =>
        hsubset (List.perm_middle.mem_iff.mpr (List.mem_append_left ys hy))
      refine ih _ (fun y hy => ?_) hrest (fun y hy z hz => ?_)
        (hinsert x sorted hnext hsorted fun y hy => hbefore y hy x List.mem_cons_self)
      · rcases List.mem_append.mp hy with hy | hy
        · exact hnext (List.mem_cons.mpr (mem_insertBack.mp hy))
        · exact hsubset (List.mem_append_right sorted (List.mem_cons_of_mem x hy))
      · rcases mem_insertBack.mp hy with rfl | hy
        · exact hx z hz
        · exact hbefore y hy z (List.mem_cons_of_mem x hz)
  exact List.pairwise_reverse.mpr (hfold xs [] (List.Subset.refl xs) h (by simp) .nil)

/-- Inserting keeps an order in which the new element stands behind the first one that it need not
precede, and behind those that this one is behind. -/
theorem pairwise_insertBack {R : α → α → Prop} (h : sorted.Pairwise fun b a => R a b)
    (hbefore : ∀ y ∈ sorted, precedes x y = true → R x y)
    (hbehind : ∀ y ∈ sorted, precedes x y = false → R y x ∧ ∀ z ∈ sorted, R z y → R z x) :
    (insertBack precedes x sorted).Pairwise fun b a => R a b := by
  induction sorted with
  | nil => exact List.pairwise_singleton _ _
  | cons y rest ih =>
    obtain ⟨hy, hrest⟩ := List.pairwise_cons.mp h
    rw [insertBack]
    split
    · rename_i hxy
      have hinserted := ih hrest (fun z hz => hbefore z (List.mem_cons_of_mem y hz)) fun z hz hxz =>
        have ⟨hzx, hall⟩ := hbehind z (List.mem_cons_of_mem y hz) hxz
        ⟨hzx, fun w hw => hall w (List.mem_cons_of_mem y hw)⟩
      refine .cons (fun z hz => ?_) hinserted
      rcases mem_insertBack.mp hz with rfl | hz
      · exact hbefore y List.mem_cons_self hxy
      · exact hy z hz
    · rename_i hxy
      obtain ⟨hyx, hall⟩ := hbehind y List.mem_cons_self (Bool.eq_false_iff.mpr hxy)
      refine .cons (fun z hz => ?_) h
      rcases List.mem_cons.mp hz with rfl | hmem
      · exact hyx
      · exact hall z hz (hy z hmem)

/-- Sorting by a rank keeps the order of elements of one rank. -/
theorem pairwise_stableSort {rank : α → Nat} {S : α → α → Prop} (h : xs.Pairwise S) :
    (stableSort (fun a b => rank a < rank b) xs).Pairwise
      fun a b => rank a < rank b ∨ rank a = rank b ∧ S a b := by
  refine pairwise_stableSort_of (fun x sorted _ hsorted hx => ?_) h
  have hle : ∀ z ∈ sorted, rank z ≤ rank x → rank z < rank x ∨ rank z = rank x ∧ S z x :=
    fun z hz hzx => (Nat.lt_or_eq_of_le hzx).imp_right fun heq => ⟨heq, hx z hz⟩
  refine pairwise_insertBack hsorted (fun y _ hxy => .inl (of_decide_eq_true hxy)) fun y hy hxy => ?_
  have hyx : rank y ≤ rank x := Nat.le_of_not_lt (of_decide_eq_false hxy)
  refine ⟨hle y hy hyx, fun z hz hzy => hle z hz (Nat.le_trans ?_ hyx)⟩
  exact hzy.elim Nat.le_of_lt fun h => Nat.le_of_eq h.1

/-- Sorting by a relation that implies a transitive one puts the elements in the order of that one, if
elements stand in it that need not change places. -/
theorem pairwise_stableSort_of_trans {R : α → α → Prop} (htrans : ∀ a b c, R a b → R b c → R a c)
    (hprecedes : ∀ a b, precedes a b = true → R a b)
    (h : xs.Pairwise fun y x => precedes x y = false → R y x) :
    (stableSort precedes xs).Pairwise R := by
  refine pairwise_stableSort_of (fun x sorted _ hsorted hx => ?_) h
  refine pairwise_insertBack hsorted (fun y _ => hprecedes x y) fun y hy hxy => ?_
  have hyx : R y x := hx y hy hxy
  exact ⟨hyx, fun z _ hzy => htrans z y x hzy hyx⟩

/-! ## Lists that are in order or in reverse -/

theorem insertBack_eq_cons (h : ∀ y ∈ sorted, precedes x y = false) :
    insertBack precedes x sorted = x :: sorted := by
  cases sorted with
  | nil => rfl
  | cons y rest => rw [insertBack, h y List.mem_cons_self]; rfl

theorem insertBack_eq_append :
    ∀ {sorted : List α}, (∀ y ∈ sorted, precedes x y = true) →
      insertBack precedes x sorted = sorted ++ [x]
  | [], _ => rfl
  | y :: rest, h => by
    rw [insertBack, if_pos (h y List.mem_cons_self),
      insertBack_eq_append fun z hz => h z (List.mem_cons_of_mem y hz)]
    rfl

/-- Elements of which none precedes one before it stay where they are. -/
theorem stableSort_eq_self (h : xs.Pairwise fun x y => precedes y x = false) :
    stableSort precedes xs = xs := by
  have hfold : ∀ ys sorted : List α, (sorted.reverse ++ ys).Pairwise (fun x y => precedes y x = false) →
      ys.foldl (fun sorted x => insertBack precedes x sorted) sorted = ys.reverse ++ sorted := by
    intro ys
    induction ys with
    | nil => exact fun _ _ => rfl
    | cons y ys ih =>
      intro sorted h
      have hafter : ∀ z ∈ sorted, precedes y z = false := fun z hz =>
        (List.pairwise_append.mp h).2.2 z (List.mem_reverse.mpr hz) y List.mem_cons_self
      rw [List.foldl_cons, insertBack_eq_cons hafter, ih _ (by simpa using h)]
      simp
  rw [stableSort, hfold xs [] h, List.append_nil, List.reverse_reverse]

/-- Elements each of which has to precede those before it are sorted by turning them around. -/
theorem stableSort_eq_reverse (h : xs.Pairwise fun x y => precedes y x = true) :
    stableSort precedes xs = xs.reverse := by
  have hfold : ∀ ys sorted : List α, (sorted ++ ys).Pairwise (fun x y => precedes y x = true) →
      ys.foldl (fun sorted x => insertBack precedes x sorted) sorted = sorted ++ ys := by
    intro ys
    induction ys with
    | nil => simp
    | cons y ys ih =>
      intro sorted h
      have hbefore : ∀ z ∈ sorted, precedes y z = true := fun z hz =>
        (List.pairwise_append.mp h).2.2 z hz y List.mem_cons_self
      rw [List.foldl_cons, insertBack_eq_append hbefore, ih _ (by simpa using h)]
      simp
  rw [stableSort, hfold xs [] h, List.nil_append]

/-! ## Dropping elements -/

/-- The relation orders the elements up to ties: no two of them precede each other, and of two elements
in order one is in order with any third one. -/
structure OrdersUpToTies (precedes : α → α → Bool) (xs : List α) : Prop where
  asymm : ∀ a ∈ xs, ∀ b ∈ xs, precedes a b = true → precedes b a = false
  split : ∀ a ∈ xs, ∀ b ∈ xs, ∀ c ∈ xs, precedes a c = true →
    precedes a b = true ∨ precedes b c = true

namespace OrdersUpToTies

theorem of_subset {ys : List α} (h : OrdersUpToTies precedes xs) (hsubset : ys ⊆ xs) :
    OrdersUpToTies precedes ys where
  asymm a ha b hb := h.asymm a (hsubset ha) b (hsubset hb)
  split a ha b hb c hc := h.split a (hsubset ha) b (hsubset hb) c (hsubset hc)

/-- An element that need not precede the last one of the sorted part need not precede any. -/
theorem not_precedes {y : α} (h : OrdersUpToTies precedes (x :: y :: sorted))
    (hxy : precedes x y = false) (hy : ∀ z ∈ sorted, precedes y z = false) :
    ∀ z ∈ y :: sorted, precedes x z = false := by
  intro z hz
  rcases List.mem_cons.mp hz with rfl | hmem
  · exact hxy
  · refine Bool.eq_false_iff.mpr fun hxz => ?_
    rcases h.split x List.mem_cons_self y (by simp) z (by simp [hmem]) hxz with hlt | hlt
    · exact Bool.eq_false_iff.mp hxy hlt
    · exact Bool.eq_false_iff.mp (hy z hmem) hlt

theorem pairwise_insertBack (h : OrdersUpToTies precedes (x :: sorted))
    (hsorted : sorted.Pairwise fun b a => precedes b a = false) :
    (insertBack precedes x sorted).Pairwise fun b a => precedes b a = false := by
  refine KeyedQuery.pairwise_insertBack hsorted
    (fun y hy => h.asymm x List.mem_cons_self y (List.mem_cons_of_mem x hy))
    fun y hy hxy => ⟨hxy, fun z hz hyz => ?_⟩
  have hsubset : [x, y, z] ⊆ x :: sorted := by simp [hy, hz]
  exact (h.of_subset hsubset).not_precedes hxy (by simpa using hyz) z (by simp)

/-- Sorting puts no element before one that precedes it. -/
theorem pairwise_stableSort (h : OrdersUpToTies precedes xs) :
    (stableSort precedes xs).Pairwise fun a b => precedes b a = false :=
  pairwise_stableSort_of (fun _ _ hsubset hsorted _ => (h.of_subset hsubset).pairwise_insertBack hsorted)
    (List.pairwise_of_forall fun _ _ => trivial)

/-- Inserting an element and then dropping some is the same as dropping them first. -/
theorem filter_insertBack (h : OrdersUpToTies precedes (x :: sorted))
    (hsorted : sorted.Pairwise fun b a => precedes b a = false) (p : α → Bool) :
    (insertBack precedes x sorted).filter p =
      if p x then insertBack precedes x (sorted.filter p) else sorted.filter p := by
  induction sorted with
  | nil => cases hx : p x <;> simp [insertBack, hx]
  | cons y rest ih =>
    obtain ⟨hy, hrest⟩ := List.pairwise_cons.mp hsorted
    have hrest := ih (h.of_subset (by simp)) hrest
    rw [insertBack]
    split
    · rename_i hxy
      rw [List.filter_cons, hrest]
      cases hpx : p x <;> cases hpy : p y <;> simp [insertBack, hpy, hxy]
    · rename_i hxy
      -- The element goes in front of all of them, and so in front of those that are left.
      have hall := h.not_precedes (Bool.eq_false_iff.mpr hxy) hy
      rw [insertBack_eq_cons fun z hz => hall z (List.mem_filter.mp hz).1, List.filter_cons]

/-- Elements can be dropped before sorting as well as after it. -/
theorem stableSort_filter (h : OrdersUpToTies precedes xs) (p : α → Bool) :
    stableSort precedes (xs.filter p) = (stableSort precedes xs).filter p := by
  have hfold : ∀ xs sorted : List α, OrdersUpToTies precedes (sorted ++ xs) →
      (sorted.Pairwise fun b a => precedes b a = false) →
      (xs.filter p).foldl (fun sorted x => insertBack precedes x sorted) (sorted.filter p) =
        (xs.foldl (fun sorted x => insertBack precedes x sorted) sorted).filter p := by
    intro xs
    induction xs with
    | nil => exact fun _ _ _ => rfl
    | cons x xs ih =>
      intro sorted h hsorted
      have hx : OrdersUpToTies precedes (x :: sorted) := h.of_subset (by simp)
      have hnext := ih _ (h.of_subset fun y hy => ?_) (hx.pairwise_insertBack hsorted)
      · rw [List.foldl_cons, ← hnext, hx.filter_insertBack hsorted, List.filter_cons]
        split <;> rfl
      · rcases List.mem_append.mp hy with hy | hy
        · rcases mem_insertBack.mp hy with rfl | hy <;> simp [*]
        · simp [hy]
  rw [stableSort, stableSort, List.filter_reverse]
  exact congrArg List.reverse (hfold xs [] (by simpa using h) .nil)

end OrdersUpToTies

end KeyedQuery
