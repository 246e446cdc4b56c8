import KeyedQuery.Number.Decimal
import Mathlib.Algebra.Order.Field.Power
import Mathlib.Data.List.TakeWhile
import Mathlib.Data.Rat.Cast.Order
import Mathlib.Tactic.Ring

/-!
# Laid out numerals

A laid out numeral shows digits before a point and behind it, and a power of ten. These parts can
be read off its characters (`Numeral.chars_injective`), and they have the value of the digits that
were laid out (`Binary64.exists_numeral_layout`).
-/

namespace KeyedQuery

/-! ## Characters -/

/-- The characters of numerals. -/
def isNumeral (c : Char) : Bool :=
  c.isDigit || c = '-' || c = '+' || c = '.' || c = 'e'

theorem isNumeral_of_isDigit {c : Char} (h : c.isDigit = true) : isNumeral c = true := by
  simp [isNumeral, h]

theorem toList_toString_nat (n : Nat) : (toString n).toList = Nat.toDigits 10 n :=
  Nat.toList_repr

theorem isDigit_of_mem_toString {n : Nat} {c : Char} (h : c ∈ (toString n).toList) :
    c.isDigit = true := by
  rw [toList_toString_nat] at h
  exact Nat.isDigit_of_mem_toDigits (by decide) (by decide) h

theorem toString_nat_injective : Function.Injective fun n : Nat => toString n := by
  intro m n h
  have hlist : Nat.toDigits 10 m = Nat.toDigits 10 n := by
    rw [← toList_toString_nat, ← toList_toString_nat]
    exact congrArg String.toList h
  have hvalue := congrArg (fun digits => Nat.ofDigitChars 10 digits 0) hlist
  simpa [Nat.ofDigitChars_ten_toDigits] using hvalue

theorem ne_of_isDigit {c mark : Char} (h : c.isDigit = true) (hmark : mark.isDigit = false) :
    c ≠ mark := by
  rintro rfl
  exact absurd h (by simp [hmark])

/-- A text splits in one way before the first mark. -/
theorem append_inj_of_mark {mark : Char} {a a' b b' : List Char} (ha : mark ∉ a) (ha' : mark ∉ a')
    (hb : ∀ c ∈ b.head?, c = mark) (hb' : ∀ c ∈ b'.head?, c = mark) (h : a ++ b = a' ++ b') :
    a = a' ∧ b = b' := by
  induction a generalizing a' with
  | nil =>
    cases a' with
    | nil => exact ⟨rfl, h⟩
    | cons c a' =>
      rw [List.nil_append] at h
      have hc : c = mark := hb c (by rw [h]; rfl)
      exact absurd (hc ▸ List.mem_cons_self) ha'
  | cons c a ih =>
    cases a' with
    | nil =>
      rw [List.nil_append] at h
      have hc : c = mark := hb' c (by rw [← h]; rfl)
      exact absurd (hc ▸ List.mem_cons_self) ha
    | cons c' a' =>
      obtain ⟨rfl, htail⟩ := List.cons.inj h
      obtain ⟨rfl, rfl⟩ := ih (fun hm => ha (List.mem_cons_of_mem _ hm))
        (fun hm => ha' (List.mem_cons_of_mem _ hm)) htail
      exact ⟨rfl, rfl⟩

/-! ## Parts of numerals -/

/-- A numeral with digits on both sides of a point, or with a power of ten behind its digits. -/
@[ext] structure Numeral where
  /-- The digits before the point. -/
  whole : List Char
  /-- The digits behind the point, which is left out with them. -/
  fraction : List Char
  /-- The power of ten. -/
  exponent : Option Int
  /-- There are digits before the point. -/
  whole_ne_nil : whole ≠ []
  /-- Both sides of the point are digits. -/
  isDigit : ∀ c ∈ whole ++ fraction, c.isDigit = true
  /-- A numeral is no integer. -/
  marked : fraction ≠ [] ∨ exponent.isSome = true

namespace Numeral

/-- The point and the digits behind it. -/
def fractionChars (fraction : List Char) : List Char :=
  if fraction.isEmpty then [] else '.' :: fraction

/-- The power of ten with its sign. -/
def exponentChars : Option Int → List Char
  | none => []
  | some e => 'e' :: (if e < 0 then '-' else '+') :: (toString e.natAbs).toList

/-- The text of a numeral. -/
def chars (n : Numeral) : List Char :=
  n.whole ++ fractionChars n.fraction ++ exponentChars n.exponent

/-- The value of a numeral. -/
def value (n : Numeral) : ℚ :=
  Nat.ofDigitChars 10 (n.whole ++ n.fraction) 0 *
    (10 : ℚ) ^ (n.exponent.getD 0 - n.fraction.length)

theorem fractionChars_injective : Function.Injective fractionChars := by
  intro f f' h
  unfold fractionChars at h
  cases f with
  | nil =>
    cases f' with
    | nil => rfl
    | cons _ _ => cases h
  | cons _ _ =>
    cases f' with
    | nil => cases h
    | cons _ _ => exact List.tail_eq_of_cons_eq h

theorem exponentChars_injective : Function.Injective exponentChars := by
  intro e e' h
  cases e with
  | none =>
    cases e' with
    | none => rfl
    | some _ => cases h
  | some m =>
    cases e' with
    | none => cases h
    | some n =>
      obtain ⟨hsign, hdigits⟩ := List.cons.inj (List.tail_eq_of_cons_eq h)
      have habs : m.natAbs = n.natAbs := toString_nat_injective (String.toList_inj.mp hdigits)
      congr 1
      by_cases hm : m < 0
      · by_cases hn : n < 0
        · omega
        · rw [if_pos hm, if_neg hn] at hsign
          exact absurd hsign (by decide)
      · by_cases hn : n < 0
        · rw [if_neg hm, if_pos hn] at hsign
          exact absurd hsign (by decide)
        · omega

theorem isDigit_whole (n : Numeral) {c : Char} (h : c ∈ n.whole) : c.isDigit = true :=
  n.isDigit c (List.mem_append_left _ h)

theorem isDigit_fraction (n : Numeral) {c : Char} (h : c ∈ n.fraction) : c.isDigit = true :=
  n.isDigit c (List.mem_append_right _ h)

theorem mem_fractionChars {fraction : List Char} {c : Char} (h : c ∈ fractionChars fraction) :
    c = '.' ∨ c ∈ fraction := by
  unfold fractionChars at h
  split at h
  · simp at h
  · exact List.mem_cons.mp h

/-- The parts of a numeral can be read off its text. -/
theorem chars_injective : Function.Injective chars := by
  intro m n h
  have hnoExponent : ∀ k : Numeral, 'e' ∉ k.whole ++ fractionChars k.fraction := by
    intro k hk
    rcases List.mem_append.mp hk with hk | hk
    · exact ne_of_isDigit (k.isDigit_whole hk) rfl rfl
    · rcases mem_fractionChars hk with hk | hk
      · exact absurd hk (by decide)
      · exact ne_of_isDigit (k.isDigit_fraction hk) rfl rfl
  have hnoPoint : ∀ k : Numeral, '.' ∉ k.whole := fun k hk =>
    ne_of_isDigit (k.isDigit_whole hk) rfl rfl
  have hexponent : ∀ (e : Option Int), ∀ c ∈ (exponentChars e).head?, c = 'e' := by
    intro e c hc
    cases e with
    | none => simp [exponentChars] at hc
    | some _ => exact (Option.some.inj hc).symm
  have hfraction : ∀ (f : List Char), ∀ c ∈ (fractionChars f).head?, c = '.' := by
    intro f c hc
    cases f with
    | nil => simp [fractionChars] at hc
    | cons _ _ => exact (Option.some.inj hc).symm
  obtain ⟨hmantissa, he⟩ :=
    append_inj_of_mark (hnoExponent m) (hnoExponent n) (hexponent _) (hexponent _) h
  obtain ⟨hw, hf⟩ :=
    append_inj_of_mark (hnoPoint m) (hnoPoint n) (hfraction _) (hfraction _) hmantissa
  exact Numeral.ext hw (fractionChars_injective hf) (exponentChars_injective he)

theorem isNumeral_of_mem_chars (n : Numeral) {c : Char} (h : c ∈ n.chars) : isNumeral c = true := by
  unfold chars at h
  rcases List.mem_append.mp h with h | h
  · rcases List.mem_append.mp h with h | h
    · exact isNumeral_of_isDigit (n.isDigit_whole h)
    · rcases mem_fractionChars h with rfl | h
      · rfl
      · exact isNumeral_of_isDigit (n.isDigit_fraction h)
  · cases he : n.exponent with
    | none =>
      rw [he] at h
      simp [exponentChars] at h
    | some e =>
      rw [he] at h
      rcases List.mem_cons.mp h with rfl | h
      · rfl
      rcases List.mem_cons.mp h with rfl | h
      · split <;> rfl
      · exact isNumeral_of_isDigit (isDigit_of_mem_toString h)

theorem exists_mark_mem_chars (n : Numeral) : '.' ∈ n.chars ∨ 'e' ∈ n.chars := by
  unfold chars
  rcases n.marked with h | h
  · refine Or.inl (List.mem_append_left _ (List.mem_append_right _ ?_))
    unfold fractionChars
    rw [if_neg (by simpa using h)]
    exact List.mem_cons_self
  · obtain ⟨e, he⟩ := Option.isSome_iff_exists.mp h
    refine Or.inr (List.mem_append_right _ ?_)
    rw [he]
    exact List.mem_cons_self

theorem head?_chars (n : Numeral) : ∃ c, n.chars.head? = some c ∧ c.isDigit = true := by
  obtain ⟨c, rest, hc⟩ := List.exists_cons_of_ne_nil n.whole_ne_nil
  refine ⟨c, ?_, n.isDigit_whole (hc ▸ List.mem_cons_self)⟩
  unfold chars
  rw [hc]
  rfl

/-- Zeros around the digits only shift the value. -/
theorem value_eq (n : Numeral) {digits : List Char} {before behind : Nat}
    (h : n.whole ++ n.fraction = List.replicate before '0' ++ digits ++ List.replicate behind '0') :
    n.value = Nat.ofDigitChars 10 digits 0 *
      (10 : ℚ) ^ (behind + n.exponent.getD 0 - n.fraction.length) := by
  unfold value
  rw [h, Nat.ofDigitChars_append, Nat.ofDigitChars_append, Nat.ofDigitChars_replicate_zero,
    Nat.ofDigitChars_replicate_zero, Nat.mul_zero, add_sub_assoc, zpow_add₀ (by norm_num),
    zpow_natCast]
  push_cast
  ring

/-- Digits with zeros around them are the parts of a numeral. -/
theorem exists_numeral {digits whole fraction : List Char} {before behind : Nat}
    (hdigits : ∀ c ∈ digits, c.isDigit = true)
    (h : whole ++ fraction = List.replicate before '0' ++ digits ++ List.replicate behind '0')
    (hwhole : whole ≠ []) (exponent : Option Int)
    (hmarked : fraction ≠ [] ∨ exponent.isSome = true) :
    ∃ n : Numeral, n.chars = whole ++ fractionChars fraction ++ exponentChars exponent ∧
      n.value = Nat.ofDigitChars 10 digits 0 *
        (10 : ℚ) ^ (behind + exponent.getD 0 - fraction.length) := by
  have hzeros : ∀ n : Nat, ∀ c ∈ List.replicate n '0', c.isDigit = true := by
    intro n c hc
    rw [List.eq_of_mem_replicate hc]
    rfl
  have hall : ∀ c ∈ whole ++ fraction, c.isDigit = true := by
    intro c hc
    rw [h] at hc
    rcases List.mem_append.mp hc with hc | hc
    · rcases List.mem_append.mp hc with hc | hc
      · exact hzeros _ c hc
      · exact hdigits c hc
    · exact hzeros _ c hc
  exact ⟨⟨whole, fraction, exponent, hwhole, hall, hmarked⟩, rfl, value_eq _ h⟩

end Numeral

/-! ## Layout -/

namespace Binary64

theorem exists_eq_significantDigits_append (digits : List Char) :
    ∃ k, digits = significantDigits digits ++ List.replicate k '0' := by
  have hzeros : digits.reverse.takeWhile (· == '0') =
      List.replicate (digits.reverse.takeWhile (· == '0')).length '0' := by
    refine List.eq_replicate_iff.mpr ⟨rfl, fun c hc => ?_⟩
    have hzero : (c == '0') = true := List.mem_takeWhile_imp (p := (· == '0')) hc
    exact beq_iff_eq.mp hzero
  refine ⟨(digits.reverse.takeWhile (· == '0')).length, ?_⟩
  unfold significantDigits
  rw [← List.reverse_replicate, ← List.reverse_append, ← hzeros, List.takeWhile_append_dropWhile,
    List.reverse_reverse]

/-- Digits are filled up with zeros to the point, and to the first place behind it if they end
there. -/
theorem exists_fraction (digits : List Char) (whole : Nat) {padded : List Char}
    (hpadded : padded = digits ++ List.replicate (whole - digits.length) '0') :
    ∃ fraction behind, (fractionText (padded.drop whole)).toList = fraction ∧ fraction ≠ [] ∧
      padded.take whole ++ fraction =
        List.replicate 0 '0' ++ digits ++ List.replicate behind '0' ∧
      (behind : Int) - fraction.length = whole - digits.length := by
  have hlength : padded.length = digits.length + (whole - digits.length) := by simp [hpadded]
  cases hdrop : padded.drop whole with
  | nil =>
    have hle : padded.length ≤ whole := List.drop_eq_nil_iff.mp hdrop
    refine ⟨['0'], whole - digits.length + 1, rfl, List.cons_ne_nil _ _, ?_, ?_⟩
    · rw [List.take_of_length_le hle, hpadded, List.replicate_succ', List.append_assoc]
      rfl
    · rw [List.length_singleton]
      omega
  | cons c rest =>
    have hrest := congrArg List.length hdrop
    rw [List.length_drop, List.length_cons] at hrest
    refine ⟨c :: rest, whole - digits.length, by simp [fractionText], List.cons_ne_nil _ _, ?_, ?_⟩
    · rw [← hdrop, List.take_append_drop, hpadded]
      rfl
    · rw [List.length_cons]
      omega

/-- Digits whose first one stands before the point. -/
theorem exists_numeral_whole {digits : List Char} (hdigits : ∀ c ∈ digits, c.isDigit = true)
    {leading : Int} (hlow : 0 ≤ leading) (hhigh : leading ≤ 15) :
    ∃ n : Numeral, (layout digits leading).toList = n.chars ∧
      n.value = Nat.ofDigitChars 10 digits 0 * (10 : ℚ) ^ (leading + 1 - digits.length) := by
  obtain ⟨whole, hplace⟩ : ∃ whole : Nat, (whole : Int) = leading + 1 :=
    ⟨leading.toNat + 1, by omega⟩
  obtain ⟨padded, hpadded⟩ :
      ∃ padded, padded = digits ++ List.replicate (whole - digits.length) '0' := ⟨_, rfl⟩
  obtain ⟨fraction, behind, htext, hne, hparts, hbehind⟩ := exists_fraction digits whole hpadded
  have hwhole : padded.take whole ≠ [] := by
    rw [← List.length_pos_iff, List.length_take, hpadded, List.length_append,
      List.length_replicate]
    omega
  obtain ⟨n, hn, hvalue⟩ := Numeral.exists_numeral hdigits hparts hwhole none (Or.inl hne)
  refine ⟨n, ?_, ?_⟩
  · rw [hn]
    unfold layout
    rw [if_pos ⟨hlow, hhigh⟩, show leading.toNat + 1 = whole by omega]
    dsimp only
    rw [← hpadded]
    simp [htext, hne, Numeral.fractionChars, Numeral.exponentChars]
  · rw [hvalue]
    congr 2
    simp only [Option.getD_none]
    omega

/-- Digits whose first one stands behind the point. -/
theorem exists_numeral_fraction {digits : List Char} (hdigits : ∀ c ∈ digits, c.isDigit = true)
    (hne : digits ≠ []) {leading : Int} (hlow : -5 ≤ leading) (hhigh : leading < 0) :
    ∃ n : Numeral, (layout digits leading).toList = n.chars ∧
      n.value = Nat.ofDigitChars 10 digits 0 * (10 : ℚ) ^ (leading + 1 - digits.length) := by
  obtain ⟨zeros, hzeros⟩ : ∃ zeros : Nat, (zeros : Int) = -leading - 1 :=
    ⟨(-leading - 1).toNat, by omega⟩
  have hparts : ['0'] ++ (List.replicate zeros '0' ++ digits) =
      List.replicate (zeros + 1) '0' ++ digits ++ List.replicate 0 '0' := by
    simp [List.replicate_succ]
  obtain ⟨n, hn, hvalue⟩ := Numeral.exists_numeral hdigits hparts (List.cons_ne_nil _ _) none
    (Or.inl (by simp [hne]))
  refine ⟨n, ?_, ?_⟩
  · rw [hn]
    unfold layout
    rw [if_neg (by omega), if_pos ⟨hlow, hhigh⟩, show (-leading - 1).toNat = zeros by omega]
    simp [Numeral.fractionChars, Numeral.exponentChars, hne]
  · rw [hvalue]
    congr 2
    simp only [Option.getD_none, List.length_append, List.length_replicate]
    push_cast
    omega

/-- Digits with a power of ten. -/
theorem exists_numeral_exponent {digits : List Char} (hdigits : ∀ c ∈ digits, c.isDigit = true)
    (hne : digits ≠ []) {leading : Int} (hhigh : ¬(0 ≤ leading ∧ leading ≤ 15))
    (hlow : ¬(-5 ≤ leading ∧ leading < 0)) :
    ∃ n : Numeral, (layout digits leading).toList = n.chars ∧
      n.value = Nat.ofDigitChars 10 digits 0 * (10 : ℚ) ^ (leading + 1 - digits.length) := by
  obtain ⟨c, rest, rfl⟩ := List.exists_cons_of_ne_nil hne
  have hparts : [c] ++ rest = List.replicate 0 '0' ++ c :: rest ++ List.replicate 0 '0' := by
    simp
  obtain ⟨n, hn, hvalue⟩ := Numeral.exists_numeral hdigits hparts (List.cons_ne_nil _ _)
    (some leading) (Or.inr rfl)
  refine ⟨n, ?_, ?_⟩
  · rw [hn]
    unfold layout
    rw [if_neg hhigh, if_neg hlow]
    by_cases hrest : rest = [] <;> by_cases hsign : leading < 0 <;>
      simp [Numeral.fractionChars, Numeral.exponentChars, hrest, hsign]
  · rw [hvalue]
    congr 2
    simp only [Option.getD_some, List.length_cons]
    push_cast
    omega

/-- Laid out digits keep their value. -/
theorem exists_numeral_layout {digits : List Char} (hdigits : ∀ c ∈ digits, c.isDigit = true)
    (hne : digits ≠ []) (leading : Int) :
    ∃ n : Numeral, (layout digits leading).toList = n.chars ∧
      n.value = Nat.ofDigitChars 10 digits 0 * (10 : ℚ) ^ (leading + 1 - digits.length) := by
  by_cases hwhole : 0 ≤ leading ∧ leading ≤ 15
  · exact exists_numeral_whole hdigits hwhole.1 hwhole.2
  · by_cases hfraction : -5 ≤ leading ∧ leading < 0
    · exact exists_numeral_fraction hdigits hne hfraction.1 hfraction.2
    · exact exists_numeral_exponent hdigits hne hwhole hfraction

end Binary64

end KeyedQuery
