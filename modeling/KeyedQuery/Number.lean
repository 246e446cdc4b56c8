import KeyedQuery.Number.Decimal

/-!
# Numbers

A document number is an exact integer or a finite binary64 number, and remembers which:
`1` and `1.0` are different numbers. Numeric comparison goes through binary64 on both sides,
so two integers that round to the same binary64 number compare equal.
-/

namespace KeyedQuery

/-- A number of a document. -/
inductive Number where
  /-- An integer; the reader yields only those of 64 bits, signed or unsigned. -/
  | int (n : Int)
  /-- A number written with a point or an exponent, or too large for 64 bits. -/
  | real (x : Binary64)
deriving DecidableEq

namespace Number

/-- The nearest binary64 number. -/
def toBinary64 : Number → Binary64
  | .int n => Binary64.ofInt n
  | .real x => x

/-- Numeric order of the binary64 readings. -/
protected def compare (a b : Number) : Ordering :=
  a.toBinary64.compare b.toBinary64

/-- Numeric equality of the binary64 readings. -/
def agrees (a b : Number) : Bool :=
  a.toBinary64.same b.toBinary64

/-- Equality as document numbers: an integer never equals a binary64 number. -/
def same : Number → Number → Bool
  | .int a, .int b => a = b
  | .real x, .real y => x.same y
  | _, _ => false

/-- The integer, when it fits 64 bits with a sign. -/
def signed64? : Number → Option Int
  | .int n => if -(Nat.pow 2 63 : Nat) ≤ n ∧ n < (Nat.pow 2 63 : Nat) then some n else none
  | .real _ => none

/-- The number written out; a binary64 number always shows a point or an exponent. -/
def text : Number → String
  | .int n => toString n
  | .real x => x.text

/-- The text under which numbers are grouped: integral values below `Binary64.integerBound`
are written as integers, however they were stored. -/
def groupText (a : Number) : String :=
  match a.toBinary64.integer? with
  | some n => toString n
  | none => a.text

/-- The number a binary64 result is stored as: an integer when it is a small integral value. -/
def ofBinary64 (x : Binary64) : Number :=
  match x.integer? with
  | some n => .int n
  | none => .real x

end Number

end KeyedQuery
