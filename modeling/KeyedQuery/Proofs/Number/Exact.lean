import KeyedQuery.Number
import Mathlib.Algebra.Order.Ring.Int
import Mathlib.Tactic.Ring

/-!
# Integers in binary64

Integers of magnitude below `2 ^ 53` are exact in binary64: their reading counts as many units as
they say (`Binary64.signedUnits_ofInt`), two of them agree only if they are equal
(`Number.int_agrees_int`), and a sum that stays below `Binary64.integerBound` is stored as the
integer it is (`Number.ofBinary64_add?`).
-/

namespace KeyedQuery

namespace Binary64

theorem unitsPerOne_pos : 0 < unitsPerOne :=
  twoPow_pos 1074

theorem integerBound_lt_twoPow : integerBound < twoPow 53 := by
  decide

/-- The last of 53 bits divides a number of units with no more significant bits than that. -/
theorem twoPow_dropped_dvd {significand : Nat} (hs : significand < twoPow 53) (exponent : Nat) :
    twoPow ((significand * twoPow exponent).log2 - 52) ∣ significand * twoPow exponent := by
  rcases Nat.eq_zero_or_pos significand with rfl | hpos
  · simp
  have hlt : significand * twoPow exponent < twoPow (53 + exponent) := by
    rw [twoPow_add]
    exact Nat.mul_lt_mul_of_pos_right hs (twoPow_pos exponent)
  have hne : significand * twoPow exponent ≠ 0 :=
    Nat.mul_ne_zero hpos.ne' (twoPow_pos exponent).ne'
  have hlog : (significand * twoPow exponent).log2 < 53 + exponent :=
    (Nat.log2_lt hne).mpr hlt
  refine dvd_mul_of_dvd_right ?_ significand
  obtain ⟨k, hk⟩ := Nat.exists_eq_add_of_le
    (show (significand * twoPow exponent).log2 - 52 ≤ exponent by omega)
  exact ⟨twoPow k, by rw [← twoPow_add, ← hk]⟩

/-- A number of units with no more than 53 significant bits is left alone by rounding. -/
theorem roundRatio_mul_twoPow {significand : Nat} (hs : significand < twoPow 53) (exponent : Nat) :
    roundRatio (significand * twoPow exponent) 1 = significand * twoPow exponent := by
  have hdvd := twoPow_dropped_dvd hs exponent
  unfold roundRatio
  dsimp only
  rw [Nat.div_one, Nat.one_mul, Nat.mod_eq_zero_of_dvd hdvd, if_neg, Nat.div_mul_cancel hdvd]
  have := twoPow_pos ((significand * twoPow exponent).log2 - 52)
  omega

theorem ofRatio?_whole (negative : Bool) {n : Nat} (hn : n < twoPow 53) :
    ∃ x, ofRatio? negative (n * unitsPerOne) 1 = some x ∧
      x.negative = negative ∧ x.units = n * unitsPerOne := by
  have hround : roundRatio (n * unitsPerOne) 1 = n * unitsPerOne := by
    unfold unitsPerOne
    exact roundRatio_mul_twoPow hn 1074
  have hfits : roundRatio (n * unitsPerOne) 1 < overflow := by
    rw [hround, unitsPerOne]
    exact (representable_mul_twoPow hn (by decide)).2
  generalize n * unitsPerOne = units at hround hfits ⊢
  exact ⟨_, dif_pos hfits, rfl, hround⟩

/-- A number of whole ones is rounded by its sign and its magnitude. -/
theorem ofSignedUnits?_mul (n : Int) :
    ofSignedUnits? (n * unitsPerOne) = ofRatio? (n < 0) (n.natAbs * unitsPerOne) 1 := by
  have hpos : (0 : Int) < unitsPerOne := by exact_mod_cast unitsPerOne_pos
  have hsign : (decide (n * (unitsPerOne : Int) < 0)) = decide (n < 0) := by
    rw [decide_eq_decide]
    exact ⟨fun h => neg_of_mul_neg_left h hpos.le, fun h => mul_neg_of_neg_of_pos h hpos⟩
  unfold ofSignedUnits?
  rw [hsign, Int.natAbs_mul, Int.natAbs_natCast]

theorem ofSignedUnits?_whole {n : Int} (hn : n.natAbs < twoPow 53) :
    ∃ x, ofSignedUnits? (n * unitsPerOne) = some x ∧
      x.negative = decide (n < 0) ∧ x.units = n.natAbs * unitsPerOne := by
  rw [ofSignedUnits?_mul]
  exact ofRatio?_whole _ hn

theorem natAbs_signedUnits (x : Binary64) : x.signedUnits.natAbs = x.units := by
  unfold signedUnits
  split <;> simp

theorem signedUnits_eq_of_units {x : Binary64} {n : Int} (hs : x.negative = decide (n < 0))
    (hu : x.units = n.natAbs * unitsPerOne) : x.signedUnits = n * unitsPerOne := by
  unfold signedUnits
  rw [hs, hu]
  by_cases hn : n < 0
  · rw [if_pos (by simpa using hn), Nat.cast_mul, Int.ofNat_natAbs_of_nonpos hn.le, neg_mul, neg_neg]
  · rw [if_neg (by simpa using hn), Nat.cast_mul, Int.natAbs_of_nonneg (not_lt.mp hn)]

/-- Below `2 ^ 53` the reading of an integer is exact. -/
theorem signedUnits_ofInt {n : Int} (hn : n.natAbs < twoPow 53) :
    (ofInt n).signedUnits = n * unitsPerOne := by
  obtain ⟨x, hx, hs, hu⟩ := ofRatio?_whole (decide (n < 0)) hn
  unfold ofInt
  rw [hx, Option.getD_some]
  exact signedUnits_eq_of_units hs hu

theorem integer?_of_units {x : Binary64} {n : Int} (hs : x.negative = decide (n < 0))
    (hu : x.units = n.natAbs * unitsPerOne) (hn : n.natAbs < integerBound) :
    x.integer? = some n := by
  unfold integer?
  rw [hu, Nat.mul_mod_left, Nat.mul_div_cancel _ unitsPerOne_pos, if_pos ⟨rfl, hn⟩, hs]
  by_cases h : n < 0
  · rw [if_pos (by simpa using h), Int.ofNat_natAbs_of_nonpos h.le, neg_neg]
  · rw [if_neg (by simpa using h), Int.natAbs_of_nonneg (not_lt.mp h)]

theorem integer?_ofInt {n : Int} (hn : n.natAbs < integerBound) : (ofInt n).integer? = some n := by
  obtain ⟨x, hx, hs, hu⟩ :=
    ofRatio?_whole (decide (n < 0)) (hn.trans integerBound_lt_twoPow)
  unfold ofInt
  rw [hx, Option.getD_some]
  exact integer?_of_units hs hu hn

/-- Numbers of one size are the same integer, if they are one. -/
theorem integer?_congr {x y : Binary64} (h : x.signedUnits = y.signedUnits) :
    x.integer? = y.integer? := by
  unfold signedUnits at h
  unfold integer?
  have hunits : x.units = y.units := by split at h <;> split at h <;> omega
  rw [hunits] at h ⊢
  split
  · have hzero : x.negative ≠ y.negative → y.units = 0 := fun hsign => by
      split at h <;> split at h <;> first | omega | simp_all
    by_cases hsign : x.negative = y.negative
    · rw [hsign]
    · rw [hzero hsign, Nat.zero_div]
      split <;> split <;> rfl
  · rfl

theorem signedUnits_of_integer? {x : Binary64} {n : Int} (h : x.integer? = some n) :
    x.signedUnits = n * unitsPerOne ∧ n.natAbs < integerBound := by
  unfold integer? at h
  split at h
  · rename_i hx
    obtain ⟨hmod, hlt⟩ := hx
    obtain ⟨q, hq⟩ := Nat.dvd_of_mod_eq_zero hmod
    rw [hq, Nat.mul_div_cancel_left _ unitsPerOne_pos] at h hlt
    obtain rfl := Option.some.inj h
    unfold signedUnits
    rw [hq, Nat.cast_mul, mul_comm]
    split
    · exact ⟨by rw [neg_mul], by rwa [Int.natAbs_neg, Int.natAbs_natCast]⟩
    · exact ⟨rfl, by rwa [Int.natAbs_natCast]⟩
  · cases h

theorem same_iff {x y : Binary64} : x.same y = true ↔ x.signedUnits = y.signedUnits := by
  simp [same]

end Binary64

namespace Number

theorem agrees_iff {a b : Number} :
    a.agrees b = true ↔ a.toBinary64.signedUnits = b.toBinary64.signedUnits :=
  Binary64.same_iff

/-- Integers that binary64 can tell apart agree only if they are equal. -/
theorem int_agrees_int {a b : Int} (ha : a.natAbs < twoPow 53) (hb : b.natAbs < twoPow 53) :
    (Number.int a).agrees (.int b) = true ↔ a = b := by
  rw [agrees_iff]
  show (Binary64.ofInt a).signedUnits = (Binary64.ofInt b).signedUnits ↔ _
  have hpos : (Binary64.unitsPerOne : Int) ≠ 0 := by exact_mod_cast Binary64.unitsPerOne_pos.ne'
  rw [Binary64.signedUnits_ofInt ha, Binary64.signedUnits_ofInt hb, mul_left_inj' hpos]

/-- Adding integers stays exact while the sum is below the bound. -/
theorem ofBinary64_add? {a b : Int} (ha : a.natAbs < twoPow 53) (hb : b.natAbs < twoPow 53)
    (hab : (a + b).natAbs < Binary64.integerBound) :
    ∃ x, (Binary64.ofInt a).add? (Binary64.ofInt b) = some x ∧
      Number.ofBinary64 x = .int (a + b) := by
  obtain ⟨x, hx, hs, hu⟩ :=
    Binary64.ofSignedUnits?_whole (hab.trans Binary64.integerBound_lt_twoPow)
  refine ⟨x, ?_, ?_⟩
  · unfold Binary64.add?
    rw [Binary64.signedUnits_ofInt ha, Binary64.signedUnits_ofInt hb, ← add_mul, hx]
  · unfold ofBinary64
    rw [Binary64.integer?_of_units hs hu hab]

theorem signed64?_int {n : Int} (hn : n.natAbs < twoPow 53) : (Number.int n).signed64? = some n := by
  have hlt : twoPow 53 < Nat.pow 2 63 := by decide
  unfold signed64?
  dsimp only
  rw [if_pos]
  omega

end Number

end KeyedQuery
