import KeyedQuery.Grouping
import Mathlib.Data.List.Induction
import Mathlib.Data.List.Pairwise

/-!
# Firsts of groups

`distinctBy` keeps elements of different groups, one of every group (`pairwise_distinctBy`,
`exists_mem_distinctBy`), in the order in which the groups appear (`pairwise_findIdx_distinctBy`). An
element behind the others is kept if it is the first of its group (`distinctBy_concat`).
-/

namespace KeyedQuery

variable {α : Type} {group : α → String}

theorem distinctBy_go (group : α → String) (xs : List α) : ∀ seen : List String,
    (∀ x ∈ distinctBy.go group seen xs, x ∈ xs ∧ group x ∉ seen) ∧
      (∀ x ∈ xs, group x ∈ seen ∨ ∃ y ∈ distinctBy.go group seen xs, group y = group x) ∧
      (distinctBy.go group seen xs).Pairwise fun x y => group x ≠ group y := by
  induction xs with
  | nil => simp [distinctBy.go]
  | cons x xs ih =>
    intro seen
    rw [distinctBy.go]
    split
    · rename_i hseen
      obtain ⟨hmem, hall, hapart⟩ := ih seen
      refine ⟨fun y hy => ⟨List.mem_cons_of_mem x (hmem y hy).1, (hmem y hy).2⟩, ?_, hapart⟩
      rintro y (_ | ⟨_, hy⟩)
      · exact .inl hseen
      · exact hall y hy
    · rename_i hfresh
      obtain ⟨hmem, hall, hapart⟩ := ih (group x :: seen)
      refine ⟨?_, ?_, hapart.cons fun y hy heq => (hmem y hy).2 (heq ▸ List.mem_cons_self)⟩
      · rintro y (_ | ⟨_, hy⟩)
        · exact ⟨List.mem_cons_self, hfresh⟩
        · obtain ⟨hin, hnot⟩ := hmem y hy
          exact ⟨List.mem_cons_of_mem x hin, fun h => hnot (List.mem_cons_of_mem _ h)⟩
      · rintro y (_ | ⟨_, hy⟩)
        · exact .inr ⟨x, List.mem_cons_self, rfl⟩
        · rcases hall y hy with hgroup | ⟨z, hz, heq⟩
          · rcases List.mem_cons.mp hgroup with heq | hseen
            · exact .inr ⟨x, List.mem_cons_self, heq.symm⟩
            · exact .inl hseen
          · exact .inr ⟨z, List.mem_cons_of_mem x hz, heq⟩

theorem mem_of_mem_distinctBy {xs : List α} {x : α} (h : x ∈ distinctBy group xs) : x ∈ xs :=
  ((distinctBy_go group xs []).1 x h).1

theorem exists_mem_distinctBy {xs : List α} {x : α} (h : x ∈ xs) :
    ∃ y ∈ distinctBy group xs, group y = group x := by
  rcases (distinctBy_go group xs []).2.1 x h with hseen | hy
  · cases hseen
  · exact hy

theorem pairwise_distinctBy (xs : List α) :
    (distinctBy group xs).Pairwise fun x y => group x ≠ group y :=
  (distinctBy_go group xs []).2.2

/-- Elements of different groups are all kept. -/
theorem distinctBy_eq_self {xs : List α} (h : xs.Pairwise fun x y => group x ≠ group y) :
    distinctBy group xs = xs := by
  have hgo : ∀ (xs : List α) (seen : List String), xs.Pairwise (fun x y => group x ≠ group y) →
      (∀ x ∈ xs, group x ∉ seen) → distinctBy.go group seen xs = xs := by
    intro xs
    induction xs with
    | nil => simp [distinctBy.go]
    | cons x xs ih =>
      intro seen hapart hfresh
      obtain ⟨hx, hrest⟩ := List.pairwise_cons.mp hapart
      rw [distinctBy.go, if_neg (hfresh x List.mem_cons_self), ih _ hrest fun y hy hmem => ?_]
      rcases List.mem_cons.mp hmem with heq | hseen
      · exact hx y hy heq.symm
      · exact hfresh y (List.mem_cons_of_mem x hy) hseen
  exact hgo xs [] h (by simp)

/-- A last element is kept if no element before it is of its group. -/
theorem distinctBy_concat (group : α → String) (xs : List α) (x : α) :
    distinctBy group (xs ++ [x]) =
      distinctBy group xs ++ if group x ∈ xs.map group then [] else [x] := by
  have hgo : ∀ (xs : List α) (seen : List String),
      distinctBy.go group seen (xs ++ [x]) = distinctBy.go group seen xs ++
        if group x ∈ seen ∨ group x ∈ xs.map group then [] else [x] := by
    intro xs
    induction xs with
    | nil =>
      intro seen
      by_cases hseen : group x ∈ seen <;> simp [distinctBy.go, hseen]
    | cons y ys ih =>
      intro seen
      rw [List.cons_append, distinctBy.go, distinctBy.go]
      by_cases hseen : group y ∈ seen
      · rw [if_pos hseen, if_pos hseen, ih]
        have hiff : (group x ∈ seen ∨ group x ∈ ys.map group) ↔
            (group x ∈ seen ∨ group x ∈ (y :: ys).map group) := by
          rw [List.map_cons, List.mem_cons]
          constructor
          · exact Or.imp_right .inr
          · rintro (h | heq | h)
            · exact .inl h
            · exact .inl (heq ▸ hseen)
            · exact .inr h
        simp only [hiff]
      · rw [if_neg hseen, if_neg hseen, ih, List.cons_append]
        have hiff : (group x ∈ group y :: seen ∨ group x ∈ ys.map group) ↔
            (group x ∈ seen ∨ group x ∈ (y :: ys).map group) := by
          rw [List.map_cons, List.mem_cons, List.mem_cons, or_assoc, or_left_comm]
        simp only [hiff]
  refine (hgo xs []).trans ?_
  simp only [List.not_mem_nil, false_or]
  rfl

theorem findIdx_concat_of_mem {xs : List α} {x y : α} {g : String} (hy : y ∈ xs) (hg : group y = g) :
    (xs ++ [x]).findIdx (fun z => group z = g) = xs.findIdx fun z => group z = g := by
  rw [List.findIdx_append, if_pos]
  exact List.findIdx_lt_length_of_exists ⟨y, hy, by simpa using hg⟩

/-- The kept elements stand in the order in which their groups appear. -/
theorem pairwise_findIdx_distinctBy (xs : List α) :
    (distinctBy group xs).Pairwise fun x y =>
      (xs.findIdx fun z => group z = group x) < xs.findIdx fun z => group z = group y := by
  induction xs using List.reverseRecOn with
  | nil => exact .nil
  | append_singleton xs x ih =>
    rw [distinctBy_concat, List.pairwise_append]
    refine ⟨ih.imp_of_mem fun {y z} hy hz hlt => ?_, ?_, fun y hy z hz => ?_⟩
    · rwa [findIdx_concat_of_mem (mem_of_mem_distinctBy hy) rfl,
        findIdx_concat_of_mem (mem_of_mem_distinctBy hz) rfl]
    · split <;> simp
    · split at hz
      · cases hz
      · rename_i hfresh
        obtain rfl := List.mem_singleton.mp hz
        have hy := mem_of_mem_distinctBy hy
        have hnone : xs.findIdx (fun w => group w = group z) = xs.length :=
          List.findIdx_eq_length.mpr fun w hw => by
            simpa using fun h => hfresh (List.mem_map.mpr ⟨w, hw, h⟩)
        rw [findIdx_concat_of_mem hy rfl, List.findIdx_append, hnone]
        have hlt : xs.findIdx (fun w => group w = group y) < xs.length :=
          List.findIdx_lt_length_of_exists ⟨y, hy, by simp⟩
        simp only [Nat.lt_irrefl, if_false]
        omega

end KeyedQuery
