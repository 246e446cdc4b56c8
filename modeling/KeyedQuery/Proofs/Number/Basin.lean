import KeyedQuery.Proofs.Number.Exact
import Mathlib.Algebra.Order.Field.Power
import Mathlib.Data.Rat.Cast.Order
import Mathlib.Tactic.Linarith
import Mathlib.Tactic.Positivity

/-!
# Basins of magnitudes

The values that round to a magnitude of binary64 are its basin. A value is in the basin of at most
one magnitude (`Binary64.Basin.eq_of_holds`), and a basin is wider than the seventeenth digit. So
`Binary64.shortest` finds a numeral in the basin (`Binary64.contains_shortest`), and its value
tells the magnitude (`Binary64.units_eq_of_value_shortest`).
-/

namespace KeyedQuery

/-! ## Values of numerals -/

namespace Decimal

/-- The value of a numeral. -/
def value (d : Decimal) : ℚ :=
  d.digits * (10 : ℚ) ^ d.exponent

theorem toRatio_eq (d : Decimal) :
    0 < d.toRatio.2 ∧ (d.toRatio.1 : ℚ) = d.value * Binary64.unitsPerOne * d.toRatio.2 := by
  obtain ⟨digits, exponent⟩ := d
  cases exponent with
  | ofNat e =>
    refine ⟨Nat.one_pos, ?_⟩
    show ((digits * Nat.pow 10 e * Binary64.unitsPerOne : Nat) : ℚ) =
      digits * (10 : ℚ) ^ (Int.ofNat e) * Binary64.unitsPerOne * ((1 : Nat) : ℚ)
    rw [Int.ofNat_eq_natCast, zpow_natCast]
    push_cast
    rw [mul_one]
    norm_cast
  | negSucc e =>
    refine ⟨Nat.pow_pos (by decide), ?_⟩
    show ((digits * Binary64.unitsPerOne : Nat) : ℚ) =
      digits * (10 : ℚ) ^ (Int.negSucc e) * Binary64.unitsPerOne * ((Nat.pow 10 (e + 1) : Nat) : ℚ)
    have hpow : ((Nat.pow 10 (e + 1) : Nat) : ℚ) = (10 : ℚ) ^ (e + 1) := by norm_cast
    have hne : (10 : ℚ) ^ (e + 1) ≠ 0 := pow_ne_zero _ (by norm_num)
    rw [zpow_negSucc, hpow, mul_right_comm, inv_mul_cancel_right₀ hne, Nat.cast_mul]

end Decimal

namespace Binary64

theorem unitsPerOne_pos' : (0 : ℚ) < unitsPerOne := by
  exact_mod_cast unitsPerOne_pos

/-- The ends of the basin belong to it if it is closed. -/
def Basin.Holds (b : Basin) (y : ℚ) : Prop :=
  if b.closed then (b.low : ℚ) ≤ y ∧ y ≤ b.high else (b.low : ℚ) < y ∧ y < b.high

/-- A numeral is in a basin if its value is, in quarters of a unit. -/
theorem Basin.contains_iff (b : Basin) (d : Decimal) :
    b.contains d = true ↔ b.Holds (4 * (d.value * unitsPerOne)) := by
  obtain ⟨hden, hnum⟩ := d.toRatio_eq
  have hden' : (0 : ℚ) < d.toRatio.2 := by exact_mod_cast hden
  have hvalue : (4 * d.toRatio.1 : ℚ) = 4 * (d.value * unitsPerOne) * d.toRatio.2 := by
    rw [hnum]
    ring
  have hle : ∀ n : Nat, (n : ℚ) ≤ 4 * (d.value * unitsPerOne) ↔
      n * d.toRatio.2 ≤ 4 * d.toRatio.1 := by
    intro n
    rw [← mul_le_mul_iff_left₀ hden', ← hvalue]
    exact_mod_cast Iff.rfl
  have hge : ∀ n : Nat, 4 * (d.value * unitsPerOne) ≤ (n : ℚ) ↔
      4 * d.toRatio.1 ≤ n * d.toRatio.2 := by
    intro n
    rw [← mul_le_mul_iff_left₀ hden', ← hvalue]
    exact_mod_cast Iff.rfl
  unfold contains Holds
  dsimp only
  split
  · rw [hle, hge, decide_eq_true_eq]
  · rw [decide_eq_true_eq, ← Nat.not_le, ← Nat.not_le, ← not_le, ← not_le, hle, hge]

/-! ## Grids -/

/-- The units between two neighbours on the grid of a power of ten. -/
def gap (place : Int) : ℚ :=
  (10 : ℚ) ^ place * unitsPerOne

theorem gap_pos (place : Int) : 0 < gap place :=
  mul_pos (zpow_pos (by norm_num) place) unitsPerOne_pos'

theorem gap_add_one (place : Int) : gap (place + 1) = 10 * gap place := by
  unfold gap
  rw [zpow_add_one₀ (by norm_num)]
  ring

theorem value_mul_unitsPerOne (digits : Nat) (place : Int) :
    Decimal.value ⟨digits, place⟩ * unitsPerOne = digits * gap place :=
  mul_assoc _ _ _

/-- A magnitude lies between the two neighbours that are found for it on a grid. -/
theorem floorAt_spec (units : Nat) (place : Int) :
    (floorAt units place : ℚ) * gap place ≤ units ∧
      (units : ℚ) < ((floorAt units place + 1 : Nat) : ℚ) * gap place := by
  cases place with
  | ofNat e =>
    have hgap : gap (Int.ofNat e) = ((Nat.pow 10 e * unitsPerOne : Nat) : ℚ) := by
      unfold gap
      rw [Int.ofNat_eq_natCast, zpow_natCast]
      push_cast
      norm_cast
    have hpos : 0 < Nat.pow 10 e * unitsPerOne :=
      Nat.mul_pos (Nat.pow_pos (by decide)) unitsPerOne_pos
    rw [hgap]
    constructor
    · exact_mod_cast Nat.div_mul_le_self units (Nat.pow 10 e * unitsPerOne)
    · exact_mod_cast Nat.lt_mul_of_div_lt (Nat.lt_succ_self _) hpos
  | negSucc e =>
    have hten : (0 : ℚ) < ((Nat.pow 10 (e + 1) : Nat) : ℚ) := by
      exact_mod_cast Nat.pow_pos (by decide)
    have hgap : gap (Int.negSucc e) * ((Nat.pow 10 (e + 1) : Nat) : ℚ) = unitsPerOne := by
      have hpow : ((Nat.pow 10 (e + 1) : Nat) : ℚ) = (10 : ℚ) ^ (e + 1) := by norm_cast
      have hne : (10 : ℚ) ^ (e + 1) ≠ 0 := pow_ne_zero _ (by norm_num)
      unfold gap
      rw [zpow_negSucc, hpow, mul_right_comm, inv_mul_cancel₀ hne, one_mul]
    rw [← mul_le_mul_iff_left₀ hten, ← mul_lt_mul_iff_left₀ hten, mul_assoc, mul_assoc, hgap]
    constructor
    · exact_mod_cast Nat.div_mul_le_self (units * Nat.pow 10 (e + 1)) unitsPerOne
    · exact_mod_cast Nat.lt_mul_of_div_lt (Nat.lt_succ_self _) unitsPerOne_pos

/-- A grid does not step over a magnitude exactly if it has a positive neighbour below it. -/
theorem floorAt_ne_zero_iff {units : Nat} {place : Int} :
    floorAt units place ≠ 0 ↔ gap place ≤ units := by
  obtain ⟨hlow, hhigh⟩ := floorAt_spec units place
  constructor
  · intro hne
    refine le_trans ?_ hlow
    have hone : (1 : ℚ) ≤ floorAt units place := by exact_mod_cast Nat.one_le_iff_ne_zero.mpr hne
    exact le_mul_of_one_le_left (gap_pos place).le hone
  · intro hle hzero
    rw [hzero] at hhigh
    simp only [Nat.zero_add, Nat.cast_one, one_mul] at hhigh
    exact absurd hhigh (not_lt.mpr hle)

/-! ## The leading place -/

set_option maxRecDepth 10000 in
/-- The estimate of the leading place of a power of two is at most one too high. -/
theorem floorAt_twoPow_ne_zero : ∀ bits < maxBits,
    floorAt (twoPow bits) (((bits : Int) - 1074) * 30103 / 100000 - 1) ≠ 0 := by
  decide +kernel

theorem twoPow_log2_le {units : Nat} (h : units ≠ 0) : twoPow units.log2 ≤ units :=
  Nat.log2_self_le h

theorem log2_lt_of_lt_twoPow {units bits : Nat} (hne : units ≠ 0) (h : units < twoPow bits) :
    units.log2 < bits :=
  (Nat.log2_lt hne).mpr h

/-- The leading digit of a magnitude is not put too high. -/
theorem gap_leadingPlace_le {units : Nat} (hne : units ≠ 0) (hlt : units < overflow) :
    gap (leadingPlace units) ≤ units := by
  unfold leadingPlace
  dsimp only
  split
  · have hpower := floorAt_ne_zero_iff.mp
      (floorAt_twoPow_ne_zero units.log2 (log2_lt_of_lt_twoPow hne hlt))
    exact hpower.trans (by exact_mod_cast twoPow_log2_le hne)
  · rename_i hfloor
    split
    · rename_i hten
      have hfloor := (floorAt_spec units (((units.log2 : Int) - 1074) * 30103 / 100000)).1
      rw [gap_add_one]
      exact le_trans (mul_le_mul_of_nonneg_right (by exact_mod_cast hten) (gap_pos _).le) hfloor
    · exact floorAt_ne_zero_iff.mp hfloor

theorem gap_add (place : Int) (n : Nat) : gap (place + n) = 10 ^ n * gap place := by
  unfold gap
  rw [zpow_add₀ (by norm_num), zpow_natCast]
  ring

/-! ## Steps -/

/-- The units between a magnitude and the next one. -/
def step (units : Nat) : Nat :=
  twoPow (units.log2 - 52)

theorem step_pos (units : Nat) : 0 < step units :=
  twoPow_pos _

theorem log2_le_log2 {u v : Nat} (h : u ≤ v) : u.log2 ≤ v.log2 := by
  rcases Nat.eq_zero_or_pos u with rfl | hu
  · simp
  · exact (Nat.le_log2 (by omega)).mpr ((Nat.log2_self_le hu.ne').trans h)

theorem twoPow_dvd_twoPow {m n : Nat} (h : m ≤ n) : twoPow m ∣ twoPow n :=
  pow_dvd_pow 2 h

theorem step_dvd_step {u v : Nat} (h : u ≤ v) : step u ∣ step v :=
  twoPow_dvd_twoPow (Nat.sub_le_sub_right (log2_le_log2 h) 52)

/-- Magnitudes of the format are whole numbers of steps. -/
theorem step_dvd {units : Nat} (h : Representable units) : step units ∣ units := by
  obtain ⟨⟨significand, exponent, hs, rfl⟩, -⟩ := h
  rcases Nat.lt_or_eq_of_le hs with hs | rfl
  · exact twoPow_dropped_dvd hs exponent
  · have hshift : twoPow 53 * twoPow exponent = twoPow 52 * twoPow (exponent + 1) := by
      rw [← twoPow_add, ← twoPow_add]
      congr 1
      omega
    rw [hshift]
    exact twoPow_dropped_dvd (by decide) (exponent + 1)

theorem lt_twoPow_mul_step (units : Nat) : units < twoPow 53 * step units := by
  refine Nat.lt_of_lt_of_le (lt_twoPow_log2_succ units) ?_
  unfold step
  rw [← twoPow_add]
  exact twoPow_le_twoPow (by omega)

theorem twoPow_mul_step_le {units : Nat} (h : 0 < units.log2 - 52) :
    twoPow 52 * step units ≤ units := by
  have hne : units ≠ 0 := by
    rintro rfl
    simp at h
  unfold step
  rw [← twoPow_add, show 52 + (units.log2 - 52) = units.log2 by omega]
  exact twoPow_log2_le hne

theorem step_le {units : Nat} (hne : units ≠ 0) : step units ≤ units := by
  by_cases h : 0 < units.log2 - 52
  · exact le_trans (Nat.le_mul_of_pos_left _ (twoPow_pos 52)) (twoPow_mul_step_le h)
  · unfold step
    rw [show units.log2 - 52 = 0 by omega]
    exact Nat.one_le_iff_ne_zero.mpr hne

theorem add_le_of_dvd {d u v : Nat} (hu : d ∣ u) (hv : d ∣ v) (h : u < v) : u + d ≤ v := by
  obtain ⟨k, hk⟩ := Nat.dvd_sub hv hu
  have hpos : 0 < k := by
    rcases Nat.eq_zero_or_pos k with rfl | hk'
    · omega
    · exact hk'
  have := Nat.le_mul_of_pos_right d hpos
  omega

/-- The next magnitude is at least a step away. -/
theorem add_step_le {u v : Nat} (hu : Representable u) (hv : Representable v) (h : u < v) :
    u + step u ≤ v :=
  add_le_of_dvd (step_dvd hu) ((step_dvd_step h.le).trans (step_dvd hv)) h

/-! ## Basins apart -/

/-- Twice the units between a magnitude and the one before it. -/
def stepDown (units : Nat) : Nat :=
  if units = twoPow 52 * step units ∧ 0 < units.log2 - 52 then step units else 2 * step units

theorem basin_eq (units : Nat) :
    basin units = ⟨4 * units - stepDown units, 4 * units + 2 * step units,
      (units / step units) % 2 = 0⟩ :=
  rfl

theorem stepDown_le (units : Nat) : stepDown units ≤ 2 * step units := by
  unfold stepDown
  split <;> omega

theorem stepDown_pos (units : Nat) : 0 < stepDown units := by
  have := step_pos units
  unfold stepDown
  split <;> omega

theorem add_step_le_of_ne {u v : Nat} (hu : Representable u) (hv : Representable v) (h : u < v)
    (hne : ¬(v = twoPow 52 * step v ∧ 0 < v.log2 - 52)) : u + step v ≤ v := by
  by_cases hdropped : u.log2 - 52 = v.log2 - 52
  · have hstep : step v = step u := congrArg twoPow hdropped.symm
    exact add_le_of_dvd (hstep ▸ step_dvd hu) (step_dvd hv) h
  · have hlog := log2_le_log2 h.le
    have hpos : 0 < v.log2 - 52 := by omega
    have hbinade : u < twoPow 52 * step v := by
      refine Nat.lt_of_lt_of_le (lt_twoPow_log2_succ u) ?_
      unfold step
      rw [← twoPow_add]
      exact twoPow_le_twoPow (by omega)
    have hlt : twoPow 52 * step v < v := by
      have := twoPow_mul_step_le hpos
      omega
    have := add_le_of_dvd (Nat.dvd_mul_left _ _) (step_dvd hv) hlt
    omega

/-- The magnitude before a power of two is half a step away. -/
theorem two_mul_add_step_le {u v : Nat} (hu : Representable u) (hv : Representable v) (h : u < v)
    (heq : v = twoPow 52 * step v) (hpos : 0 < v.log2 - 52) : 2 * u + step v ≤ 2 * v := by
  obtain ⟨dropped, hdropped⟩ := Nat.exists_eq_add_of_le' hpos
  have hstep : step v = 2 * twoPow dropped := by
    unfold step
    rw [hdropped, twoPow_add, mul_comm]
    rfl
  by_cases hlog : u.log2 < 52 + dropped
  · have hbinade : u < twoPow 52 * twoPow dropped := by
      rw [← twoPow_add]
      exact Nat.lt_of_lt_of_le (lt_twoPow_log2_succ u) (twoPow_le_twoPow hlog)
    have hone : twoPow dropped ≤ twoPow 52 * twoPow dropped :=
      Nat.le_mul_of_pos_left _ (twoPow_pos 52)
    rw [hstep, Nat.mul_left_comm] at heq
    omega
  · have hle : twoPow dropped ≤ step u := twoPow_le_twoPow (by omega)
    have := add_step_le hu hv h
    omega

theorem two_mul_add_stepDown_le {u v : Nat} (hu : Representable u) (hv : Representable v)
    (h : u < v) : 2 * u + stepDown v ≤ 2 * v := by
  unfold stepDown
  split
  · rename_i hpower
    exact two_mul_add_step_le hu hv h hpower.1 hpower.2
  · rename_i hpower
    have := add_step_le_of_ne hu hv h hpower
    omega

/-- A whole number of steps is even only if it is no odd number of smaller steps. -/
theorem not_even_of_add_step {u v : Nat} (hv : Representable v) (h : v = u + step u)
    (heven : (u / step u) % 2 = 0) : (v / step v) % 2 ≠ 0 := by
  have hodd : (v / step u) % 2 = 1 := by
    rw [h, Nat.add_div_right _ (step_pos u)]
    omega
  obtain ⟨k, hk⟩ := step_dvd_step (u := u) (v := v) (by omega)
  obtain ⟨n, hn⟩ := step_dvd hv
  have hquotient : v / step u = k * n := by
    rw [hn, hk, Nat.mul_assoc, Nat.mul_div_cancel_left _ (step_pos u)]
  rw [Nat.div_eq_of_eq_mul_right (step_pos v) hn]
  intro hzero
  rw [hquotient, Nat.mul_mod, hzero] at hodd
  simp at hodd

/-- A basin ends where the next one starts, and one of the two leaves that value out. -/
theorem Basin.not_holds_of_lt {u v : Nat} (hu : Representable u) (hv : Representable v)
    (h : u < v) {y : ℚ} (hy : (basin u).Holds y) : ¬(basin v).Holds y := by
  have hup := add_step_le hu hv h
  have hdown := two_mul_add_stepDown_le hu hv h
  have hends : (basin u).high ≤ (basin v).low := by
    rw [basin_eq, basin_eq]
    dsimp only
    omega
  have hends' : ((basin u).high : ℚ) ≤ (basin v).low := by exact_mod_cast hends
  intro hy'
  unfold Holds at hy hy'
  split at hy
  · rename_i hclosed
    split at hy'
    · rename_i hclosed'
      have heq : (basin u).high = (basin v).low := by
        refine le_antisymm hends ?_
        exact_mod_cast hy'.1.trans hy.2
      rw [basin_eq] at heq hclosed hclosed'
      rw [basin_eq] at heq
      dsimp only at heq hclosed hclosed'
      refine not_even_of_add_step hv ?_ (of_decide_eq_true hclosed) (of_decide_eq_true hclosed')
      omega
    · exact absurd (hy.2.trans hends') (not_le.mpr hy'.1)
  · split at hy'
    · exact absurd (hy.2.trans_le hends') (not_lt.mpr hy'.1)
    · exact absurd (hy.2.trans_le hends') (not_lt.mpr hy'.1.le)

/-- A value tells the magnitude whose basin holds it. -/
theorem Basin.eq_of_holds {u v : Nat} (hu : Representable u) (hv : Representable v) {y : ℚ}
    (hy : (basin u).Holds y) (hy' : (basin v).Holds y) : u = v := by
  rcases lt_trichotomy u v with h | h | h
  · exact absurd hy' (not_holds_of_lt hu hv h hy)
  · exact h
  · exact absurd hy (not_holds_of_lt hv hu h hy')

/-- Only the basin of nothing holds zero. -/
theorem Basin.not_holds_zero {units : Nat} (hne : units ≠ 0) : ¬(basin units).Holds 0 := by
  have hlow : 0 < (basin units).low := by
    have := step_le hne
    have := stepDown_le units
    rw [basin_eq]
    dsimp only
    omega
  have hlow' : (0 : ℚ) < (basin units).low := by exact_mod_cast hlow
  unfold Holds
  split
  · exact fun h => absurd h.1 (not_le.mpr hlow')
  · exact fun h => absurd h.1 (not_lt.mpr hlow'.le)

/-! ## Seventeen digits -/

theorem Basin.holds_of_lt {b : Basin} {y : ℚ} (hlow : (b.low : ℚ) < y) (hhigh : y < b.high) :
    b.Holds y := by
  unfold Holds
  split
  · exact ⟨hlow.le, hhigh.le⟩
  · exact ⟨hlow, hhigh⟩

/-- A basin is wider than the seventeenth digit. -/
theorem four_mul_gap_lt {units : Nat} (hne : units ≠ 0) (hlt : units < overflow) :
    4 * gap (leadingPlace units - 16) < stepDown units + 2 * step units := by
  have hgap : 10 ^ 16 * gap (leadingPlace units - 16) ≤ units := by
    have hleading := gap_leadingPlace_le hne hlt
    have hplace : leadingPlace units = leadingPlace units - 16 + (16 : Nat) := by omega
    rwa [hplace, gap_add] at hleading
  have hstep : (0 : ℚ) < step units := by exact_mod_cast step_pos units
  unfold stepDown
  split
  · rename_i hpower
    have hunits : (units : ℚ) = 2 ^ 52 * step units := by exact_mod_cast hpower.1
    linarith
  · have hunits : (units : ℚ) < 2 ^ 53 * step units := by
      exact_mod_cast lt_twoPow_mul_step units
    push_cast
    linarith

theorem Basin.low_lt {units : Nat} (hne : units ≠ 0) : (basin units).low < 4 * units := by
  have := stepDown_pos units
  rw [basin_eq]
  dsimp only
  omega

theorem Basin.lt_high (units : Nat) : 4 * units < (basin units).high := by
  have := step_pos units
  rw [basin_eq]
  dsimp only
  omega

theorem Basin.high_eq {units : Nat} (hne : units ≠ 0) :
    (basin units).high = (basin units).low + (stepDown units + 2 * step units) := by
  have := step_le hne
  have := stepDown_le units
  rw [basin_eq]
  dsimp only
  omega

/-- One of the two neighbours of a magnitude on the grid of its seventeenth digit is in its
basin. -/
theorem Basin.contains_neighbour {units : Nat} (hne : units ≠ 0) (hlt : units < overflow) :
    let place := leadingPlace units - 16
    (basin units).contains ⟨floorAt units place, place⟩ = true ∨
      (basin units).contains ⟨floorAt units place + 1, place⟩ = true := by
  intro place
  have hwide : 4 * gap place < stepDown units + 2 * step units := four_mul_gap_lt hne hlt
  obtain ⟨hbelow, habove⟩ := floorAt_spec units place
  have hlow : ((basin units).low : ℚ) < 4 * units := by exact_mod_cast low_lt hne
  have hhigh : (4 * units : ℚ) < (basin units).high := by exact_mod_cast lt_high units
  have hends : ((basin units).high : ℚ) = (basin units).low + (stepDown units + 2 * step units) := by
    exact_mod_cast high_eq hne
  rw [contains_iff, contains_iff, value_mul_unitsPerOne, value_mul_unitsPerOne]
  push_cast at habove ⊢
  by_cases h : ((basin units).low : ℚ) < 4 * (floorAt units place * gap place)
  · exact Or.inl (holds_of_lt h (by linarith))
  · refine Or.inr (holds_of_lt (by linarith) ?_)
    linarith

/-! ## The shortest numeral -/

theorem contains_of_shortestAt? {units : Nat} {place : Int} {d : Decimal}
    (h : shortestAt? units place = some d) : (basin units).contains d = true := by
  unfold shortestAt? at h
  dsimp only at h
  split at h
  · cases h
  · rename_i hbelow _
    exact Option.some.inj h ▸ hbelow
  · rename_i _ habove
    exact Option.some.inj h ▸ habove
  · rename_i hbelow habove
    split at h
    · exact Option.some.inj h ▸ hbelow
    · exact Option.some.inj h ▸ habove

theorem isSome_shortestAt? {units : Nat} (hne : units ≠ 0) (hlt : units < overflow) :
    (shortestAt? units (leadingPlace units - 16)).isSome = true := by
  have hneighbour := Basin.contains_neighbour hne hlt
  unfold shortestAt?
  dsimp only at hneighbour ⊢
  split
  · rename_i hbelow habove
    rw [hbelow, habove] at hneighbour
    simp at hneighbour
  · rfl
  · rfl
  · split <;> rfl

/-- The shortest numeral of a magnitude is in its basin. -/
theorem contains_shortest {units : Nat} (hne : units ≠ 0) (hlt : units < overflow) :
    (basin units).contains (shortest units) = true := by
  unfold shortest
  rw [if_neg hne]
  dsimp only
  have hsome : ((List.range 17).findSome?
      fun (k : Nat) => shortestAt? units (leadingPlace units - k)).isSome = true :=
    List.findSome?_isSome_iff.mpr
      ⟨16, List.mem_range.mpr (by decide), isSome_shortestAt? hne hlt⟩
  obtain ⟨d, hd⟩ := Option.isSome_iff_exists.mp hsome
  rw [hd, Option.getD_some]
  obtain ⟨k, -, hk⟩ := List.exists_of_findSome?_eq_some hd
  exact contains_of_shortestAt? hk

/-- The value of the shortest numeral tells the magnitude. -/
theorem units_eq_of_value_shortest {u v : Nat} (hu : Representable u) (hv : Representable v)
    (h : (shortest u).value = (shortest v).value) : u = v := by
  have hholds : ∀ {w : Nat}, w ≠ 0 → Representable w →
      (basin w).Holds (4 * ((shortest w).value * unitsPerOne)) := fun hne hw =>
    (Basin.contains_iff _ _).mp (contains_shortest hne hw.2)
  have hzero : (shortest 0).value = 0 := zero_mul _
  rcases eq_or_ne u 0 with rfl | hu0
  · rcases eq_or_ne v 0 with rfl | hv0
    · rfl
    · have hv' := hholds hv0 hv
      rw [← h, hzero, zero_mul, mul_zero] at hv'
      exact absurd hv' (Basin.not_holds_zero hv0)
  · have hu' := hholds hu0 hu
    rcases eq_or_ne v 0 with rfl | hv0
    · rw [h, hzero, zero_mul, mul_zero] at hu'
      exact absurd hu' (Basin.not_holds_zero hu0)
    · exact Basin.eq_of_holds hu hv (h ▸ hu') (hholds hv0 hv)

end Binary64

end KeyedQuery
