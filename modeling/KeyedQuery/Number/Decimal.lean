import KeyedQuery.Number.Binary64

/-!
# Decimal numerals

A `Decimal` is a natural number of powers of ten. `Decimal.toBinary64?` is the correctly
rounded reading of one, and `Binary64.shortest` the way back: the numeral with the fewest
digits among those that read back as the same number, and of these the nearest.

`Binary64.text` lays the digits out: positionally while the leading digit stands between the
fifth place after the point and the sixteenth place before it, in exponent form outside.
-/

namespace KeyedQuery

/-- The numeral `digits * 10 ^ exponent`. -/
structure Decimal where
  /-- The digits, read as a natural number. -/
  digits : Nat
  /-- The power of ten that the last digit counts. -/
  exponent : Int
deriving DecidableEq

namespace Decimal

/-- Numerals whose leading digit stands beyond this many places are zero or overflow. -/
def farPlace : Int := 400

/-- The numeral as a quotient of natural numbers of units of `2 ^ -1074`. -/
def toRatio (d : Decimal) : Nat × Nat :=
  match d.exponent with
  | .ofNat e => (d.digits * Nat.pow 10 e * Binary64.unitsPerOne, 1)
  | .negSucc e => (d.digits * Binary64.unitsPerOne, Nat.pow 10 (e + 1))

/-- The number nearest to a numeral; nothing when it is too large to be finite. A numeral whose
leading digit is far out is decided without computing its power of ten. -/
def toBinary64? (negative : Bool) (d : Decimal) : Option Binary64 :=
  let place := d.exponent + (Nat.toDigits 10 d.digits).length
  if d.digits = 0 ∨ place < -farPlace then
    Binary64.ofRatio? negative 0 1
  else if farPlace < place then
    none
  else
    Binary64.ofRatio? negative d.toRatio.1 d.toRatio.2

end Decimal

namespace Binary64

/-! ## Shortest digits -/

/-- The magnitudes that round to one binary64 magnitude, in quarters of a unit. -/
structure Basin where
  /-- The lower end. -/
  low : Nat
  /-- The upper end. -/
  high : Nat
  /-- Whether the ends, which are ties, round to it as well. -/
  closed : Bool

/-- The basin of a magnitude: half a step up, and half a step down, or a quarter of one below a
power of two, where the steps get finer. Ties go to the even significand. -/
def basin (units : Nat) : Basin :=
  let dropped := units.log2 - 52
  let step := twoPow dropped
  let down := if units = twoPow 52 * step ∧ 0 < dropped then step else 2 * step
  ⟨4 * units - down, 4 * units + 2 * step, (units / step) % 2 = 0⟩

/-- A numeral lies in the basin. -/
def Basin.contains (b : Basin) (d : Decimal) : Bool :=
  let num := 4 * d.toRatio.1
  let den := d.toRatio.2
  if b.closed then
    b.low * den ≤ num ∧ num ≤ b.high * den
  else
    b.low * den < num ∧ num < b.high * den

/-- The largest multiple of `10 ^ place` that is at most the magnitude, counted in such
multiples. -/
def floorAt (units : Nat) (place : Int) : Nat :=
  match place with
  | .ofNat e => units / (Nat.pow 10 e * unitsPerOne)
  | .negSucc e => units * Nat.pow 10 (e + 1) / unitsPerOne

/-- The numeral counting `10 ^ place` that reads back as the magnitude: one of its two neighbours
on that grid, the nearer if both do, the even one at a tie. -/
def shortestAt? (units : Nat) (place : Int) : Option Decimal :=
  let below : Decimal := ⟨floorAt units place, place⟩
  let above : Decimal := ⟨floorAt units place + 1, place⟩
  let b := basin units
  match b.contains below, b.contains above with
  | false, false => none
  | true, false => some below
  | false, true => some above
  | true, true =>
    let twice := 2 * units * below.toRatio.2
    let sum := below.toRatio.1 + above.toRatio.1
    if twice < sum ∨ (twice = sum ∧ below.digits % 2 = 0) then some below else some above

/-- The power of ten of the leading digit of a positive magnitude. -/
def leadingPlace (units : Nat) : Int :=
  let estimate := ((units.log2 : Int) - 1074) * 30103 / 100000
  if floorAt units estimate = 0 then
    estimate - 1
  else if 10 ≤ floorAt units estimate then
    estimate + 1
  else
    estimate

/-- The shortest numeral of a magnitude: the first grid, from one digit to seventeen, that has
one. -/
def shortest (units : Nat) : Decimal :=
  if units = 0 then
    ⟨0, 0⟩
  else
    let leading := leadingPlace units
    ((List.range 17).findSome? fun (k : Nat) => shortestAt? units (leading - k)).getD
      ⟨floorAt units (leading - 16), leading - 16⟩

/-! ## Layout -/

/-- Digits without the zeros at the end. -/
def significantDigits (digits : List Char) : List Char :=
  (digits.reverse.dropWhile (· == '0')).reverse

/-- Digits from the tenths on, at least one. -/
def fractionText (digits : List Char) : String :=
  if digits.isEmpty then "0" else String.ofList digits

/-- The text of a positive magnitude from its significant digits and the place of the first one. -/
def layout (digits : List Char) (leading : Int) : String :=
  if 0 ≤ leading ∧ leading ≤ 15 then
    let whole := leading.toNat + 1
    let padded := digits ++ List.replicate (whole - digits.length) '0'
    String.ofList (padded.take whole) ++ "." ++ fractionText (padded.drop whole)
  else if -5 ≤ leading ∧ leading < 0 then
    "0." ++ String.ofList (List.replicate (-leading - 1).toNat '0' ++ digits)
  else
    let tail := digits.drop 1
    let point := if tail.isEmpty then "" else "." ++ String.ofList tail
    let sign := if leading < 0 then "-" else "+"
    String.ofList (digits.take 1) ++ point ++ "e" ++ sign ++ toString leading.natAbs

/-- The text of a number: `1.0`, `0.00001`, `1.5e-6`, `1e+16`, `-0.0`. -/
def text (x : Binary64) : String :=
  let d := shortest x.units
  let digits := Nat.toDigits 10 d.digits
  let leading := d.exponent + digits.length - 1
  let body := if d.digits = 0 then "0.0" else layout (significantDigits digits) leading
  if x.negative then "-" ++ body else body

end Binary64

end KeyedQuery
