import KeyedQuery.Proofs.Number.Exact
import KeyedQuery.Proofs.Number.Shortest

/-!
# Texts of numbers

Different numbers have different texts (`Number.text_injective`), and numbers of one group agree
(`Number.agrees_of_groupText_eq`): an integral number below `Binary64.integerBound` is grouped
under that integer, and every other group holds one number.
-/

namespace KeyedQuery

theorem toList_toString_int (n : Int) :
    (toString n).toList = (if n < 0 then ['-'] else []) ++ (toString n.natAbs).toList := by
  cases n with
  | ofNat m => rfl
  | negSucc m =>
    rw [if_pos (Int.negSucc_lt_zero m)]
    exact String.toList_append

theorem isDigit_or_minus_of_mem_toString {n : Int} {c : Char} (h : c ∈ (toString n).toList) :
    c.isDigit = true ∨ c = '-' := by
  rw [toList_toString_int, List.mem_append] at h
  rcases h with h | h
  · split at h
    · exact Or.inr (List.mem_singleton.mp h)
    · simp at h
  · exact Or.inl (isDigit_of_mem_toString h)

theorem toString_int_ne_nil (n : Int) : (toString n).toList ≠ [] := by
  rw [toList_toString_int, toList_toString_nat]
  simp

theorem minus_not_mem_toString (n : Nat) : '-' ∉ (toString n).toList := fun h =>
  absurd (isDigit_of_mem_toString h) (by decide)

theorem toString_int_injective : Function.Injective fun n : Int => toString n := by
  intro m n h
  have hlist : (toString m).toList = (toString n).toList := congrArg String.toList h
  rw [toList_toString_int, toList_toString_int] at hlist
  have habs : m.natAbs = n.natAbs → (m < 0 ↔ n < 0) → m = n := by omega
  by_cases hm : m < 0
  · by_cases hn : n < 0
    · rw [if_pos hm, if_pos hn, List.append_cancel_left_eq, String.toList_inj] at hlist
      exact habs (toString_nat_injective hlist) (by simp [hm, hn])
    · rw [if_pos hm, if_neg hn] at hlist
      refine absurd ?_ (minus_not_mem_toString n.natAbs)
      rw [← List.nil_append (toString n.natAbs).toList, ← hlist]
      exact List.mem_cons_self
  · by_cases hn : n < 0
    · rw [if_neg hm, if_pos hn] at hlist
      refine absurd ?_ (minus_not_mem_toString m.natAbs)
      rw [← List.nil_append (toString m.natAbs).toList, hlist]
      exact List.mem_cons_self
    · rw [if_neg hm, if_neg hn, List.append_cancel_left_eq, String.toList_inj] at hlist
      exact habs (toString_nat_injective hlist) (by simp [hm, hn])

namespace Number

theorem isNumeral_of_mem_text (n : Number) : ∀ c ∈ n.text.toList, isNumeral c = true := by
  cases n with
  | int n =>
    intro c hc
    rcases isDigit_or_minus_of_mem_toString hc with h | rfl
    · exact isNumeral_of_isDigit h
    · rfl
  | real x => exact x.isNumeral_of_mem_text

/-- The text of a number starts with a digit or a minus sign. -/
theorem head?_text (n : Number) :
    ∃ c, n.text.toList.head? = some c ∧ (c.isDigit = true ∨ c = '-') := by
  cases n with
  | int n =>
    obtain ⟨c, rest, hc⟩ := List.exists_cons_of_ne_nil (toString_int_ne_nil n)
    exact ⟨c, congrArg List.head? hc,
      isDigit_or_minus_of_mem_toString (n := n) (hc ▸ List.mem_cons_self)⟩
  | real x => exact x.head?_text

theorem text_real_ne_toString (x : Binary64) (n : Int) : (Number.real x).text ≠ toString n := by
  intro h
  have hlist : x.text.toList = (toString n).toList := congrArg String.toList h
  rcases x.exists_mark_mem_text with hc | hc <;>
    · rw [hlist] at hc
      rcases isDigit_or_minus_of_mem_toString hc with hd | hd
      · exact absurd hd (by decide)
      · exact absurd hd (by decide)

theorem text_injective : Function.Injective text := by
  intro a b h
  match a, b with
  | .int m, .int n => exact congrArg _ (toString_int_injective h)
  | .int m, .real y => exact absurd h.symm (text_real_ne_toString y m)
  | .real x, .int n => exact absurd h (text_real_ne_toString x n)
  | .real x, .real y => exact congrArg _ (Binary64.text_injective h)

/-- A number whose text is an integer below the bound reads as that integer. -/
theorem integer?_of_text_eq {a : Number} {n : Int} (hn : n.natAbs < Binary64.integerBound)
    (h : a.text = toString n) : a.toBinary64.integer? = some n := by
  cases a with
  | int m =>
    obtain rfl := toString_int_injective h
    exact Binary64.integer?_ofInt hn
  | real x => exact absurd h (text_real_ne_toString x n)

/-- Numbers of one group agree. -/
theorem agrees_of_groupText_eq {a b : Number} (h : a.groupText = b.groupText) :
    a.agrees b = true := by
  rw [agrees_iff]
  unfold groupText at h
  cases ha : a.toBinary64.integer? with
  | some m =>
    obtain ⟨hm, hlt⟩ := Binary64.signedUnits_of_integer? ha
    cases hb : b.toBinary64.integer? with
    | some n =>
      rw [ha, hb] at h
      rw [hm, (Binary64.signedUnits_of_integer? hb).1, toString_int_injective h]
    | none =>
      rw [ha, hb] at h
      exact absurd (integer?_of_text_eq hlt h.symm) (by simp [hb])
  | none =>
    cases hb : b.toBinary64.integer? with
    | some n =>
      rw [ha, hb] at h
      exact absurd (integer?_of_text_eq (Binary64.signedUnits_of_integer? hb).2 h) (by simp [ha])
    | none =>
      rw [ha, hb] at h
      rw [text_injective h]

end Number

end KeyedQuery
