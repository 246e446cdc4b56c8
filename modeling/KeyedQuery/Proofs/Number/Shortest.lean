import KeyedQuery.Proofs.Number.Basin
import KeyedQuery.Proofs.Number.Layout

/-!
# Texts of binary64 numbers

The text of a binary64 number is its sign and a laid out numeral whose value is that of the
shortest digits (`Binary64.exists_numeral_text`). The value tells the magnitude, so different
numbers have different texts (`Binary64.text_injective`).
-/

namespace KeyedQuery

namespace Binary64

/-- The sign in front of a numeral. -/
def signChars (negative : Bool) : List Char :=
  if negative then ['-'] else []

theorem significantDigits_ne_nil {n : Nat} (hn : n ≠ 0) :
    significantDigits (Nat.toDigits 10 n) ≠ [] := by
  intro hnil
  obtain ⟨k, hk⟩ := exists_eq_significantDigits_append (Nat.toDigits 10 n)
  rw [hnil, List.nil_append] at hk
  have hvalue := Nat.ofDigitChars_ten_toDigits (n := n)
  rw [hk, Nat.ofDigitChars_replicate_zero, Nat.mul_zero] at hvalue
  exact hn hvalue.symm

/-- The text of a magnitude has the value of its shortest digits. -/
theorem exists_numeral_layout_shortest (d : Decimal) (hd : d.digits ≠ 0) :
    ∃ n : Numeral, (layout (significantDigits (Nat.toDigits 10 d.digits))
        (d.exponent + (Nat.toDigits 10 d.digits).length - 1)).toList = n.chars ∧
      n.value = d.value := by
  obtain ⟨zeros, hzeros⟩ := exists_eq_significantDigits_append (Nat.toDigits 10 d.digits)
  have hne := significantDigits_ne_nil hd
  generalize significantDigits (Nat.toDigits 10 d.digits) = digits at hzeros hne
  have hdigits : ∀ c ∈ digits, c.isDigit = true := by
    intro c hc
    refine Nat.isDigit_of_mem_toDigits (b := 10) (n := d.digits) (by decide) (by decide) ?_
    rw [hzeros]
    exact List.mem_append_left _ hc
  have hvalue : d.digits = 10 ^ zeros * Nat.ofDigitChars 10 digits 0 := by
    rw [← Nat.ofDigitChars_replicate_zero, ← Nat.ofDigitChars_append, ← hzeros,
      Nat.ofDigitChars_ten_toDigits]
  obtain ⟨n, hn, hnvalue⟩ := exists_numeral_layout hdigits hne
    (d.exponent + (Nat.toDigits 10 d.digits).length - 1)
  refine ⟨n, hn, ?_⟩
  have hplace : d.exponent + ((digits.length + zeros : Nat) : Int) - 1 + 1 - digits.length =
      zeros + d.exponent := by
    push_cast
    ring
  rw [hnvalue, hzeros, List.length_append, List.length_replicate, hplace,
    zpow_add₀ (by norm_num), zpow_natCast, Decimal.value, hvalue]
  push_cast
  ring

/-- Zero, laid out. -/
def zeroNumeral : Numeral :=
  ⟨['0'], ['0'], none, List.cons_ne_nil _ _, by simp, Or.inl (List.cons_ne_nil _ _)⟩

/-- A text is a sign and a numeral with the value of the shortest digits. -/
theorem exists_numeral_text (x : Binary64) :
    ∃ n : Numeral, x.text.toList = signChars x.negative ++ n.chars ∧
      n.value = (shortest x.units).value := by
  have hbody : ∀ body : String, (if x.negative then "-" ++ body else body).toList =
      signChars x.negative ++ body.toList := by
    intro body
    unfold signChars
    cases x.negative <;> simp
  unfold text
  dsimp only
  rw [hbody]
  split
  · rename_i hzero
    refine ⟨zeroNumeral, rfl, ?_⟩
    rw [Decimal.value, hzero, Nat.cast_zero, zero_mul]
    exact zero_mul _
  · rename_i hne
    obtain ⟨n, hn, hvalue⟩ := exists_numeral_layout_shortest (shortest x.units) hne
    exact ⟨n, by rw [hn], hvalue⟩

theorem isNumeral_of_mem_text (x : Binary64) : ∀ c ∈ x.text.toList, isNumeral c = true := by
  obtain ⟨n, hn, -⟩ := x.exists_numeral_text
  intro c hc
  rw [hn] at hc
  rcases List.mem_append.mp hc with hc | hc
  · unfold signChars at hc
    split at hc
    · rw [List.mem_singleton.mp hc]
      rfl
    · simp at hc
  · exact n.isNumeral_of_mem_chars hc

/-- A binary64 text shows a point or an exponent. -/
theorem exists_mark_mem_text (x : Binary64) : '.' ∈ x.text.toList ∨ 'e' ∈ x.text.toList := by
  obtain ⟨n, hn, -⟩ := x.exists_numeral_text
  rw [hn]
  exact n.exists_mark_mem_chars.imp (List.mem_append_right _) (List.mem_append_right _)

theorem head?_text (x : Binary64) :
    ∃ c, x.text.toList.head? = some c ∧ (c.isDigit = true ∨ c = '-') := by
  obtain ⟨n, hn, -⟩ := x.exists_numeral_text
  obtain ⟨c, hc, hdigit⟩ := n.head?_chars
  rw [hn]
  unfold signChars
  split
  · exact ⟨'-', rfl, Or.inr rfl⟩
  · exact ⟨c, hc, Or.inl hdigit⟩

/-- The sign can be told from the digits behind it. -/
theorem signChars_append_inj {s t : Bool} {m n : Numeral}
    (h : signChars s ++ m.chars = signChars t ++ n.chars) : s = t ∧ m = n := by
  have hminus : ∀ k : Numeral, k.chars.head? ≠ some '-' := by
    intro k hk
    obtain ⟨c, hc, hdigit⟩ := k.head?_chars
    exact ne_of_isDigit hdigit rfl (Option.some.inj (hc.symm.trans hk))
  cases s with
  | false =>
    cases t with
    | false => exact ⟨rfl, Numeral.chars_injective h⟩
    | true => exact absurd (congrArg List.head? h) (hminus m)
  | true =>
    cases t with
    | false => exact absurd (congrArg List.head? h).symm (hminus n)
    | true => exact ⟨rfl, Numeral.chars_injective (List.append_cancel_left h)⟩

/-- Different numbers have different texts. -/
theorem text_injective : Function.Injective text := by
  intro x y h
  obtain ⟨m, hm, hmvalue⟩ := x.exists_numeral_text
  obtain ⟨n, hn, hnvalue⟩ := y.exists_numeral_text
  rw [h, hn] at hm
  obtain ⟨hsign, rfl⟩ := signChars_append_inj hm
  have hunits := units_eq_of_value_shortest y.representable x.representable
    (hnvalue.symm.trans hmvalue)
  obtain ⟨xnegative, xunits, _⟩ := x
  obtain ⟨ynegative, yunits, _⟩ := y
  obtain rfl : ynegative = xnegative := hsign
  obtain rfl : yunits = xunits := hunits
  rfl

end Binary64

end KeyedQuery
