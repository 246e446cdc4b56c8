import KeyedQuery.Proofs.Number.Exact

/-!
# Integers that binary64 rounds

Rounding takes an integer to an integer, and one of at least `2 ^ 53` to one of at least `2 ^ 53`. So a sum
of integers comes out as an integer below `Binary64.integerBound` only if that is what it is
(`Binary64.integer?_of_ofSignedUnits?`), and an integer agrees with one below `2 ^ 53` only if they are equal.
-/

namespace KeyedQuery

namespace Binary64

/-- Rounding drops no more than zeros, as far as there are zeros. -/
theorem twoPow_dvd_roundRatio {num exponent : Nat} (h : twoPow exponent ∣ num) :
    twoPow exponent ∣ roundRatio num 1 := by
  unfold roundRatio
  dsimp only
  rw [Nat.div_one, Nat.one_mul]
  generalize num.log2 - 52 = dropped
  rcases Nat.le_total exponent dropped with hle | hle
  · obtain ⟨k, rfl⟩ := Nat.exists_eq_add_of_le hle
    have hdvd : twoPow exponent ∣ twoPow (exponent + k) := ⟨twoPow k, twoPow_add exponent k⟩
    split
    · exact dvd_mul_of_dvd_right hdvd _
    · exact dvd_mul_of_dvd_right hdvd _
  · obtain ⟨k, rfl⟩ := Nat.exists_eq_add_of_le hle
    have hdvd : twoPow dropped ∣ num := dvd_trans ⟨twoPow k, twoPow_add dropped k⟩ h
    have hpos := twoPow_pos dropped
    rw [Nat.mod_eq_zero_of_dvd hdvd, if_neg (by omega), Nat.div_mul_cancel hdvd]
    exact h

/-- Rounding does not cross a power of two downwards. -/
theorem twoPow_le_roundRatio {num exponent : Nat} (h : twoPow exponent ≤ num) :
    twoPow exponent ≤ roundRatio num 1 := by
  have hne : num ≠ 0 := (Nat.lt_of_lt_of_le (twoPow_pos exponent) h).ne'
  have hlog : exponent ≤ num.log2 := (Nat.le_log2 hne).mpr h
  have hself : twoPow num.log2 ≤ num := Nat.log2_self_le hne
  unfold roundRatio
  dsimp only
  rw [Nat.div_one, Nat.one_mul]
  have hfloor : twoPow num.log2 ≤ num / twoPow (num.log2 - 52) * twoPow (num.log2 - 52) := by
    obtain ⟨k, hk⟩ := Nat.exists_eq_add_of_le (Nat.sub_le num.log2 52)
    have hdvd : twoPow (num.log2 - 52) ∣ twoPow num.log2 := by
      conv_rhs => rw [hk, twoPow_add]
      exact Nat.dvd_mul_right _ _
    calc twoPow num.log2
        = twoPow num.log2 / twoPow (num.log2 - 52) * twoPow (num.log2 - 52) :=
          (Nat.div_mul_cancel hdvd).symm
      _ ≤ num / twoPow (num.log2 - 52) * twoPow (num.log2 - 52) :=
          Nat.mul_le_mul_right _ (Nat.div_le_div_right hself)
  have hfirst := (twoPow_le_twoPow hlog).trans hfloor
  split
  · exact hfirst.trans (Nat.mul_le_mul_right _ (Nat.le_succ _))
  · exact hfirst

/-- Rounding in units of a power of two: less than 53 bits stay as they are, and more of them stay more. -/
theorem roundRatio_mul (n exponent : Nat) :
    twoPow exponent ∣ roundRatio (n * twoPow exponent) 1 ∧
      (n < twoPow 53 → roundRatio (n * twoPow exponent) 1 = n * twoPow exponent) ∧
      (twoPow 53 ≤ n → twoPow 53 * twoPow exponent ≤ roundRatio (n * twoPow exponent) 1) := by
  refine ⟨twoPow_dvd_roundRatio ⟨n, Nat.mul_comm _ _⟩, fun hn => roundRatio_mul_twoPow hn exponent,
    fun hn => ?_⟩
  rw [← twoPow_add]
  refine twoPow_le_roundRatio ?_
  rw [twoPow_add]
  exact Nat.mul_le_mul_right _ hn

/-- The magnitude of a rounded integer, in units. -/
structure RoundedFrom (n units : Nat) : Prop where
  whole : unitsPerOne ∣ units
  exact : n < twoPow 53 → units = n * unitsPerOne
  large : twoPow 53 ≤ n → twoPow 53 * unitsPerOne ≤ units

theorem roundedFrom_roundRatio (n : Nat) : RoundedFrom n (roundRatio (n * unitsPerOne) 1) := by
  have h := roundRatio_mul n 1074
  rw [← unitsPerOne] at h
  exact ⟨h.1, h.2.1, h.2.2⟩

/-- The number is an integer, rounded. -/
structure RoundedFromInt (m : Int) (x : Binary64) : Prop where
  negative : x.negative = decide (m < 0)
  units : RoundedFrom m.natAbs x.units

theorem roundedFromInt_of_ofRatio? {m : Int} {x : Binary64}
    (h : ofRatio? (m < 0) (m.natAbs * unitsPerOne) 1 = some x) : RoundedFromInt m x := by
  have hround := roundedFrom_roundRatio m.natAbs
  generalize m.natAbs * unitsPerOne = units at h hround
  unfold ofRatio? at h
  split at h
  · obtain rfl := Option.some.inj h
    exact ⟨rfl, hround⟩
  · cases h

/-- The greatest number is an integer of more than 53 bits. -/
theorem le_units_greatest (negative : Bool) :
    unitsPerOne ∣ (greatest negative).units ∧ twoPow 53 * unitsPerOne ≤ (greatest negative).units := by
  have hsplit : twoPow 2045 = twoPow 971 * unitsPerOne := by rw [unitsPerOne, ← twoPow_add]
  show unitsPerOne ∣ (twoPow 53 - 1) * twoPow 2045 ∧ _ ≤ (twoPow 53 - 1) * twoPow 2045
  rw [hsplit, ← Nat.mul_assoc]
  refine ⟨Nat.dvd_mul_left _ _, Nat.mul_le_mul_right _ ?_⟩
  calc twoPow 53
      ≤ (twoPow 53 - 1) * twoPow 1 := by decide
    _ ≤ (twoPow 53 - 1) * twoPow 971 := Nat.mul_le_mul_left _ (twoPow_le_twoPow (by decide))

theorem roundedFromInt_ofInt (n : Int) : RoundedFromInt n (ofInt n) := by
  unfold ofInt
  cases hratio : ofRatio? (n < 0) (n.natAbs * unitsPerOne) 1 with
  | some x => exact roundedFromInt_of_ofRatio? hratio
  | none =>
    obtain ⟨hdvd, hle⟩ := le_units_greatest (n < 0)
    refine ⟨rfl, hdvd, fun hn => ?_, fun _ => hle⟩
    obtain ⟨x, hx, -⟩ := ofRatio?_whole (decide (n < 0)) hn
    cases hratio.symm.trans hx

theorem roundedFromInt_of_ofSignedUnits? {m : Int} {x : Binary64}
    (h : ofSignedUnits? (m * unitsPerOne) = some x) : RoundedFromInt m x := by
  rw [ofSignedUnits?_mul] at h
  exact roundedFromInt_of_ofRatio? h

namespace RoundedFromInt

variable {m b : Int} {x : Binary64}

/-- Rounding takes an integer to an integer. -/
theorem exists_signedUnits (h : RoundedFromInt m x) : ∃ k : Int, x.signedUnits = k * unitsPerOne := by
  obtain ⟨q, hq⟩ := h.units.whole
  refine ⟨if x.negative then -q else q, ?_⟩
  unfold signedUnits
  rw [hq]
  split <;> push_cast <;> ring

/-- What rounds to an integer of at most 53 bits is this integer. -/
theorem eq_of_signedUnits (h : RoundedFromInt m x) (hb : b.natAbs < twoPow 53)
    (hunits : x.signedUnits = b * unitsPerOne) : m = b := by
  have habs : x.units = b.natAbs * unitsPerOne := by
    have := congrArg Int.natAbs hunits
    rwa [natAbs_signedUnits, Int.natAbs_mul, Int.natAbs_natCast] at this
  have hm : m.natAbs < twoPow 53 := by
    by_contra hle
    have hlarge := h.units.large (Nat.le_of_not_lt hle)
    rw [habs] at hlarge
    exact absurd (Nat.le_of_mul_le_mul_right hlarge unitsPerOne_pos) (Nat.not_le.mpr hb)
  have hexact := signedUnits_eq_of_units h.negative (h.units.exact hm)
  have hpos : (unitsPerOne : Int) ≠ 0 := by exact_mod_cast unitsPerOne_pos.ne'
  exact mul_right_cancel₀ hpos (hexact.symm.trans hunits)

theorem integer?_eq_some_iff (h : RoundedFromInt m x) :
    x.integer? = some b ↔ m = b ∧ b.natAbs < integerBound := by
  constructor
  · intro hx
    obtain ⟨hunits, hb⟩ := signedUnits_of_integer? hx
    exact ⟨h.eq_of_signedUnits (hb.trans integerBound_lt_twoPow) hunits, hb⟩
  · rintro ⟨rfl, hm⟩
    exact integer?_of_units h.negative (h.units.exact (hm.trans integerBound_lt_twoPow)) hm

end RoundedFromInt

/-- The rounded difference of integers is an integer. -/
theorem exists_signedUnits_sub? {x y z : Binary64} {p q : Int} (hx : x.signedUnits = p * unitsPerOne)
    (hy : y.signedUnits = q * unitsPerOne) (h : x.sub? y = some z) :
    ∃ k : Int, z.signedUnits = k * unitsPerOne := by
  unfold sub? at h
  rw [hx, hy, ← sub_mul] at h
  exact (roundedFromInt_of_ofSignedUnits? h).exists_signedUnits

/-- The rounded sum of integers is an integer below the bound exactly if this is their sum without
rounding. -/
theorem add?_integer?_iff {x y : Binary64} {p q b : Int} (hx : x.signedUnits = p * unitsPerOne)
    (hy : y.signedUnits = q * unitsPerOne) : (∃ z, x.add? y = some z ∧ z.integer? = some b) ↔
      b.natAbs < integerBound ∧ x.signedUnits + y.signedUnits = b * unitsPerOne := by
  have hpos : (unitsPerOne : Int) ≠ 0 := by exact_mod_cast unitsPerOne_pos.ne'
  unfold add?
  rw [hx, hy, ← add_mul, mul_left_inj' hpos]
  constructor
  · rintro ⟨z, hz, hb⟩
    exact ((roundedFromInt_of_ofSignedUnits? hz).integer?_eq_some_iff.mp hb).symm
  · rintro ⟨hb, rfl⟩
    obtain ⟨z, hz, -⟩ := ofSignedUnits?_whole (hb.trans integerBound_lt_twoPow)
    exact ⟨z, hz, (roundedFromInt_of_ofSignedUnits? hz).integer?_eq_some_iff.mpr ⟨rfl, hb⟩⟩

/-- Integers of at most 53 bits add up. -/
theorem signedUnits_add_ofInt {a b : Int} (ha : a.natAbs < twoPow 53) (hb : b.natAbs < twoPow 53) :
    (ofInt a).signedUnits + (ofInt b).signedUnits = (a + b) * unitsPerOne := by
  rw [signedUnits_ofInt ha, signedUnits_ofInt hb, add_mul]

end Binary64

/-- An integer agrees with one of at most 53 bits only if they are equal. -/
theorem Number.eq_of_int_agrees_int {a b : Int} (hb : b.natAbs < twoPow 53)
    (h : (Number.int a).agrees (.int b) = true) : a = b :=
  (Binary64.roundedFromInt_ofInt a).eq_of_signedUnits hb
    ((agrees_iff.mp h).trans (Binary64.signedUnits_ofInt hb))

end KeyedQuery
