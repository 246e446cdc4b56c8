/-!
# Timestamps

`Instant.read?` reads an RFC 3339 date and time with an offset, and nothing else. Texts that
both read as instants are ordered by the instant in universal time rather than by their
characters. A leap second is the second before it, lengthened by a further `10 ^ 9` nanoseconds.
-/

namespace KeyedQuery

/-- A point in universal time. -/
structure Instant where
  /-- Whole seconds since the start of year zero. -/
  seconds : Int
  /-- Nanoseconds within the second; a leap second has `10 ^ 9` or more. -/
  nanos : Nat
deriving DecidableEq

namespace Instant

/-- Order in time. -/
protected def compare (a b : Instant) : Ordering :=
  (Ord.compare a.seconds b.seconds).then (Ord.compare a.nanos b.nanos)

/-! ## Calendar -/

/-- Leap years of the Gregorian calendar. -/
def isLeap (year : Nat) : Bool :=
  year % 4 = 0 ∧ (year % 100 ≠ 0 ∨ year % 400 = 0)

/-- The lengths of the months of a year. -/
def monthLengths (year : Nat) : List Nat :=
  [31, if isLeap year then 29 else 28, 31, 30, 31, 30, 31, 31, 30, 31, 30, 31]

/-- Days from the start of year zero to the start of a year. -/
def daysBeforeYear (year : Nat) : Nat :=
  365 * year + (year + 3) / 4 - (year + 99) / 100 + (year + 399) / 400

/-- Days from the start of year zero to a date that exists. -/
def dayNumber? (year month day : Nat) : Option Nat :=
  match (monthLengths year)[month - 1]? with
  | some length =>
    if 1 ≤ month ∧ 1 ≤ day ∧ day ≤ length then
      let earlier := ((monthLengths year).take (month - 1)).foldl (· + ·) 0
      some (daysBeforeYear year + earlier + (day - 1))
    else
      none
  | none => none

/-! ## Reading -/

/-- The value of a decimal digit. -/
def digitValue (c : Char) : Nat := c.toNat - '0'.toNat

/-- The natural number that digits spell. -/
def digitsValue (digits : List Char) : Nat :=
  digits.foldl (fun n c => 10 * n + digitValue c) 0

/-- Read exactly `width` digits. -/
def number? (width : Nat) (text : List Char) : Option (Nat × List Char) :=
  let digits := text.take width
  if digits.length = width ∧ digits.all Char.isDigit then
    some (digitsValue digits, text.drop width)
  else
    none

/-- Read one character of a set. -/
def skip? (allowed : List Char) : List Char → Option (List Char)
  | c :: rest => if c ∈ allowed then some rest else none
  | [] => none

/-- Read an optional fraction of a second as nanoseconds; digits after the ninth are dropped. -/
def fraction? : List Char → Option (Nat × List Char)
  | '.' :: rest =>
    let digits := rest.takeWhile Char.isDigit
    if digits.isEmpty then
      none
    else
      some (digitsValue ((digits ++ List.replicate 9 '0').take 9), rest.dropWhile Char.isDigit)
  | text => some (0, text)

/-- Read an offset from universal time, in seconds, to the end of the text. -/
def offset? (text : List Char) : Option Int :=
  match text with
  | [] => none
  | c :: rest =>
    if c = 'Z' ∨ c = 'z' then
      if rest.isEmpty then some 0 else none
    else if c = '+' ∨ c = '-' ∨ c = '−' then do
      let (hours, rest) ← number? 2 rest
      let rest ← skip? [':'] rest
      let (minutes, rest) ← number? 2 rest
      if hours < 24 ∧ minutes < 60 ∧ rest.isEmpty then
        let seconds : Int := hours * 3600 + minutes * 60
        some (if c = '+' then seconds else -seconds)
      else
        none
    else
      none

/-- Read a whole text as an instant. -/
def read? (text : String) : Option Instant := do
  let (year, rest) ← number? 4 text.toList
  let rest ← skip? ['-'] rest
  let (month, rest) ← number? 2 rest
  let rest ← skip? ['-'] rest
  let (day, rest) ← number? 2 rest
  let rest ← skip? ['T', 't', ' '] rest
  let (hour, rest) ← number? 2 rest
  let rest ← skip? [':'] rest
  let (minute, rest) ← number? 2 rest
  let rest ← skip? [':'] rest
  let (second, rest) ← number? 2 rest
  let (nanos, rest) ← fraction? rest
  let offset ← offset? rest
  let days ← dayNumber? year month day
  if hour < 24 ∧ minute < 60 ∧ second ≤ 60 then
    let leap := second = 60
    let clock := hour * 3600 + minute * 60 + if leap then 59 else second
    some ⟨(days * 86400 + clock : Nat) - offset, if leap then nanos + 1000000000 else nanos⟩
  else
    none

end Instant

end KeyedQuery
