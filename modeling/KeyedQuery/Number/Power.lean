/-!
# Powers of two

`twoPow n` is the `n`-th power of two, kept folded so that large exponents are not computed by
accident.
-/

namespace KeyedQuery

/-- A power of two. -/
def twoPow (n : Nat) : Nat := Nat.pow 2 n

/-- Powers of two are positive. -/
theorem twoPow_pos (n : Nat) : 0 < twoPow n :=
  Nat.pow_pos (by decide)

/-- Exponents add up. -/
theorem twoPow_add (m n : Nat) : twoPow (m + n) = twoPow m * twoPow n :=
  Nat.pow_add 2 m n

/-- A greater exponent gives no smaller power. -/
theorem twoPow_le_twoPow {m n : Nat} (h : m ≤ n) : twoPow m ≤ twoPow n :=
  Nat.pow_le_pow_right (by decide) h

/-- A number is below the power of two behind its length in bits. -/
theorem lt_twoPow_log2_succ (n : Nat) : n < twoPow (n.log2 + 1) :=
  Nat.lt_log2_self

end KeyedQuery
