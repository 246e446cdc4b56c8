/-!
# Groups, chunks and cuts

`distinctBy` keeps the first element of each group, where a text names the group of an element.
`chunksOf` cuts a list into consecutive parts of a given length, the last one possibly shorter.
`takeAtMost` keeps the beginning of a list up to a limit that may be absent.
-/

namespace KeyedQuery

variable {α : Type}

/-- The first element of each group, in order. -/
def distinctBy (group : α → String) (xs : List α) : List α :=
  go [] xs
where
  /-- The first element of each group that has not been seen before. -/
  go (seen : List String) : List α → List α
    | [] => []
    | x :: rest =>
      if group x ∈ seen then go seen rest else x :: go (group x :: seen) rest

/-- Consecutive parts of `n` elements; the last one holds what is left. Parts are never empty. -/
def chunksOf (n : Nat) : List α → List (List α)
  | [] => []
  | x :: rest => (x :: rest.take (n - 1)) :: chunksOf n (rest.drop (n - 1))
termination_by xs => xs.length
decreasing_by simp only [List.length_drop, List.length_cons]; omega

/-- Chunks lose and reorder nothing. -/
theorem flatten_chunksOf (n : Nat) (xs : List α) : (chunksOf n xs).flatten = xs := by
  fun_induction chunksOf n xs with
  | case1 => rfl
  | case2 x rest ih => simp [ih]

/-- The first elements up to a limit; all of them if there is none. -/
def takeAtMost (limit : Option Nat) (xs : List α) : List α :=
  match limit with
  | some n => xs.take n
  | none => xs

end KeyedQuery
