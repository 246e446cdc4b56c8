import KeyedQuery.Number.Power

/-!
# Finite binary floating point

A finite binary64 number is a sign and a magnitude counted in units of `2 ^ -1074`,
the smallest positive one. Every finite value is then a natural number of units, so
order, sums and differences are exact integer arithmetic followed by one rounding.

`Binary64.ofRatio?` is that rounding: the nearest representable number of units to a
quotient, halves to the even neighbour, and nothing once the magnitude reaches the
overflow threshold. Infinities and not-a-number have no place in a document and none here.
-/

namespace KeyedQuery

/-- How many units of `2 ^ -1074` make the number one. -/
def Binary64.unitsPerOne : Nat := twoPow 1074

/-- Finite magnitudes have fewer bits than this, counted in units. -/
def Binary64.maxBits : Nat := 2098

/-- The first magnitude, in units, that is too large to be finite: `2 ^ 1024`. -/
def Binary64.overflow : Nat := twoPow maxBits

/-- A magnitude fits the format: at most 53 significant bits, and below the overflow threshold. -/
def Binary64.Representable (units : Nat) : Prop :=
  (∃ significand exponent, significand ≤ twoPow 53 ∧ units = significand * twoPow exponent) ∧
    units < overflow

/-- A finite binary64 number; zero has both signs. -/
structure Binary64 where
  /-- The sign bit. -/
  negative : Bool
  /-- The magnitude in units of `2 ^ -1074`. -/
  units : Nat
  /-- The magnitude is one of the format. -/
  representable : Binary64.Representable units
deriving DecidableEq

namespace Binary64

/-! ## Rounding -/

/-- `num / den` units rounded to 53 significant bits, halves to even. -/
def roundRatio (num den : Nat) : Nat :=
  let dropped := (num / den).log2 - 52
  let step := den * twoPow dropped
  let quotient := num / step
  let rest := num % step
  if step < 2 * rest ∨ (step = 2 * rest ∧ quotient % 2 = 1) then
    (quotient + 1) * twoPow dropped
  else
    quotient * twoPow dropped

/-- Fewer than `2 ^ 53` steps fit below the quotient, so rounding up stays within 53 bits. -/
theorem quotient_lt (num den : Nat) :
    num / (den * twoPow ((num / den).log2 - 52)) < twoPow 53 := by
  rw [← Nat.div_div_eq_div_mul]
  generalize num / den = n
  rw [Nat.div_lt_iff_lt_mul (twoPow_pos _), ← twoPow_add]
  exact Nat.lt_of_lt_of_le (lt_twoPow_log2_succ n) (twoPow_le_twoPow (by omega))

/-- Rounding keeps at most 53 significant bits. -/
theorem roundRatio_significand (num den : Nat) :
    ∃ significand exponent, significand ≤ twoPow 53 ∧
      roundRatio num den = significand * twoPow exponent := by
  have h := quotient_lt num den
  unfold roundRatio
  dsimp only
  split
  · exact ⟨_, _, h, rfl⟩
  · exact ⟨_, _, Nat.le_of_lt h, rfl⟩

/-- The finite number nearest to `num / den` units, if there is one. -/
def ofRatio? (negative : Bool) (num den : Nat) : Option Binary64 :=
  if fits : roundRatio num den < overflow then
    some ⟨negative, roundRatio num den, roundRatio_significand num den, fits⟩
  else
    none

/-- A significand of 53 bits at an exponent of the format is a magnitude of the format. -/
theorem representable_mul_twoPow {significand exponent : Nat} (hs : significand < twoPow 53)
    (he : exponent ≤ 2045) : Representable (significand * twoPow exponent) := by
  refine ⟨⟨significand, exponent, Nat.le_of_lt hs, rfl⟩, ?_⟩
  refine Nat.lt_of_lt_of_le (Nat.mul_lt_mul_of_pos_right hs (twoPow_pos exponent)) ?_
  rw [← twoPow_add]
  exact twoPow_le_twoPow (show 53 + exponent ≤ 2098 by omega)

/-- The largest finite number of a sign: 53 ones in the topmost binade. -/
def greatest (negative : Bool) : Binary64 :=
  ⟨negative, (twoPow 53 - 1) * twoPow 2045,
    representable_mul_twoPow (by decide) (Nat.le_refl _)⟩

/-- The number nearest to an integer. Every 64-bit integer is far from overflow; larger
magnitudes stop at the greatest finite one. -/
def ofInt (n : Int) : Binary64 :=
  (ofRatio? (n < 0) (n.natAbs * unitsPerOne) 1).getD (greatest (n < 0))

/-! ## Order and arithmetic -/

/-- The exact value in units; both zeros are `0`. -/
def signedUnits (x : Binary64) : Int :=
  if x.negative then -(x.units : Int) else x.units

/-- Numeric order; the two zeros are equal. -/
protected def compare (x y : Binary64) : Ordering :=
  Ord.compare x.signedUnits y.signedUnits

/-- Numeric equality; the two zeros are equal. -/
def same (x y : Binary64) : Bool :=
  x.signedUnits = y.signedUnits

/-- The number nearest to a signed number of units. -/
def ofSignedUnits? (n : Int) : Option Binary64 :=
  ofRatio? (n < 0) n.natAbs 1

/-- The rounded sum; nothing on overflow. -/
def add? (x y : Binary64) : Option Binary64 :=
  ofSignedUnits? (x.signedUnits + y.signedUnits)

/-- The rounded difference; nothing on overflow. -/
def sub? (x y : Binary64) : Option Binary64 :=
  ofSignedUnits? (x.signedUnits - y.signedUnits)

/-- Integral values are written and stored as integers below this magnitude. -/
def integerBound : Nat := 9000000000000000

/-- The integer this number is, when it is one of magnitude below `integerBound`. -/
def integer? (x : Binary64) : Option Int :=
  if x.units % unitsPerOne = 0 ∧ x.units / unitsPerOne < integerBound then
    some (if x.negative then -(x.units / unitsPerOne : Nat) else (x.units / unitsPerOne : Nat))
  else
    none

end Binary64

end KeyedQuery
