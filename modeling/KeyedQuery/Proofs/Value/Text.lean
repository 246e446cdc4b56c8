import KeyedQuery.Document.Reader
import KeyedQuery.Proofs.Number.Text
import KeyedQuery.Proofs.Value.Agreement
import KeyedQuery.Value.Text

/-!
# Texts of values

The compact document of a value determines the value (`Value.text_injective`): a quoted text is
what the reader makes of it, a numeral ends where no numeral goes on, and lists and maps end at
their bracket. Values of one group therefore agree (`Value.agrees_of_groupKey_eq`), so nothing is
lost when values are deduplicated by group. If one of two values is a text, a truth value or a small
integer, they are of one group exactly if they agree (`Value.groupKey_eq_iff`).
-/

namespace KeyedQuery

/-! ## Quoted texts -/

open Document

theorem hexValue?_hexDigit : ∀ n < 16, hexValue? (hexDigit n) = some n := by
  decide

/-- What an escaped character stands for is that character. -/
theorem readCodes_escapeChar (c : Char) (rest : List Char) :
    readCodes (escapeChar c ++ rest) =
      (readCodes rest).map fun read => (c.toNat :: read.1, read.2) := by
  unfold escapeChar
  split_ifs with hquote hslash hn hr ht hb hf hcontrol
  · subst hquote; cases hread : readCodes rest <;> simp [readCodes, escapeCode?, hread]
  · subst hslash; cases hread : readCodes rest <;> simp [readCodes, escapeCode?, hread]
  · subst hn; cases hread : readCodes rest <;> simp [readCodes, escapeCode?, hread]
  · subst hr; cases hread : readCodes rest <;> simp [readCodes, escapeCode?, hread]
  · subst ht; cases hread : readCodes rest <;> simp [readCodes, escapeCode?, hread]
  · cases hread : readCodes rest <;> simp [readCodes, escapeCode?, hread, hb]
  · cases hread : readCodes rest <;> simp [readCodes, escapeCode?, hread, hf]
  · have hcode : codeUnit? '0' '0' (hexDigit (c.toNat / 16)) (hexDigit (c.toNat % 16)) =
        some c.toNat := by
      have hzero : hexValue? '0' = some 0 := rfl
      simp only [codeUnit?, hzero, hexValue?_hexDigit _ (show c.toNat / 16 < 16 by omega),
        hexValue?_hexDigit _ (show c.toNat % 16 < 16 by omega), Option.bind_eq_bind,
        Option.bind_some, Option.some.injEq]
      omega
    cases hread : readCodes rest <;> simp [readCodes, hcode, hread]
  · cases hread : readCodes rest <;>
      · rw [List.singleton_append, readCodes.eq_def]
        split <;> simp_all

theorem readCodes_escaped (cs rest : List Char) :
    readCodes (cs.flatMap escapeChar ++ '"' :: rest) = some (cs.map Char.toNat, rest) := by
  induction cs with
  | nil => rfl
  | cons c cs ih =>
    rw [List.flatMap_cons, List.append_assoc, readCodes_escapeChar, ih]
    rfl

/-- A quoted text can be told from what follows it. -/
theorem quoteChars_append_inj {a b : String} {r s : List Char}
    (h : quoteChars a ++ r = quoteChars b ++ s) : a = b ∧ r = s := by
  simp only [quoteChars, List.cons_append, List.append_assoc, List.nil_append,
    List.cons.injEq, true_and] at h
  have hread := congrArg readCodes h
  rw [readCodes_escaped, readCodes_escaped] at hread
  obtain ⟨hcodes, hrest⟩ := Prod.mk.inj (Option.some.inj hread)
  have hinj : Function.Injective Char.toNat := fun c d hcd => by
    rw [← Char.ofNat_toNat c, ← Char.ofNat_toNat d, hcd]
  exact ⟨String.toList_inj.mp (hinj.list_map hcodes), hrest⟩

/-! ## Numerals -/

/-- A numeral does not go on here. -/
def EndsNumeral (rest : List Char) : Prop :=
  ∀ c ∈ rest.head?, isNumeral c = false

theorem endsNumeral_nil : EndsNumeral [] := by
  simp [EndsNumeral]

theorem endsNumeral_cons {c : Char} (h : isNumeral c = false) (rest : List Char) :
    EndsNumeral (c :: rest) := by
  simpa [EndsNumeral] using h

theorem takeWhile_isNumeral {text rest : List Char} (ht : ∀ c ∈ text, isNumeral c = true)
    (hr : EndsNumeral rest) : (text ++ rest).takeWhile isNumeral = text := by
  rw [List.takeWhile_append_of_pos ht]
  cases rest with
  | nil => simp
  | cons c rest => rw [List.takeWhile_cons_of_neg (by simp [hr c rfl]), List.append_nil]

theorem Number.text_append_inj {m n : Number} {r s : List Char} (hr : EndsNumeral r)
    (hs : EndsNumeral s) (h : m.text.toList ++ r = n.text.toList ++ s) : m = n ∧ r = s := by
  have htext : m.text.toList = n.text.toList := by
    rw [← takeWhile_isNumeral m.isNumeral_of_mem_text hr, h,
      takeWhile_isNumeral n.isNumeral_of_mem_text hs]
  rw [htext] at h
  exact ⟨Number.text_injective (String.toList_inj.mp htext), List.append_cancel_left h⟩

theorem Number.text_append_ne_cons {n : Number} {c : Char} (hc : c.isDigit = false) (hm : c ≠ '-')
    (r s : List Char) : n.text.toList ++ r ≠ c :: s := by
  intro h
  obtain ⟨d, hd, hor⟩ := n.head?_text
  have hhead := congrArg List.head? h
  rw [List.head?_append, hd, Option.some_or, List.head?_cons, Option.some.injEq] at hhead
  subst hhead
  rcases hor with hdigit | hminus
  · simp [hc] at hdigit
  · exact hm hminus

/-! ## Documents -/

namespace Value

/-- No value starts with a closing bracket. -/
theorem chars_append_ne_bracket (v : Value) (r s : List Char) : v.chars ++ r ≠ ']' :: s := by
  cases v with
  | num n => exact Number.text_append_ne_cons (by decide) (by decide) r s
  | bool b => cases b <;> simp [chars]
  | _ => simp [chars, quoteChars]

theorem endsNumeral_elements (xs : List Value) (r : List Char) :
    EndsNumeral ((if xs.isEmpty then [] else [',']) ++ (elementChars xs ++ ']' :: r)) := by
  cases xs with
  | nil => exact endsNumeral_cons (by decide) _
  | cons x xs => exact endsNumeral_cons (by decide) _

theorem endsNumeral_fields (fs : List (String × Value)) (r : List Char) :
    EndsNumeral ((if fs.isEmpty then [] else [',']) ++ (fieldChars fs ++ '}' :: r)) := by
  cases fs with
  | nil => exact endsNumeral_cons (by decide) _
  | cons f fs => exact endsNumeral_cons (by decide) _

mutual

/-- A document can be told from what follows it. -/
theorem chars_append_inj : ∀ {a b : Value} {r s : List Char}, EndsNumeral r → EndsNumeral s →
    a.chars ++ r = b.chars ++ s → a = b ∧ r = s
  | .null, b, r, s, hr, hs, h => by
    cases b with
    | null => exact ⟨rfl, by simpa [chars] using h⟩
    | num n => exact absurd h.symm (Number.text_append_ne_cons (by decide) (by decide) s _)
    | bool b => cases b <;> simp [chars] at h
    | _ => simp [chars, quoteChars] at h
  | .bool a, b, r, s, hr, hs, h => by
    cases b with
    | bool b => cases a <;> cases b <;> simp_all [chars]
    | num n =>
      cases a <;>
        exact absurd h.symm (Number.text_append_ne_cons (by decide) (by decide) s _)
    | _ => cases a <;> simp [chars, quoteChars] at h
  | .num m, b, r, s, hr, hs, h => by
    cases b with
    | num n =>
      obtain ⟨rfl, hrest⟩ := Number.text_append_inj hr hs h
      exact ⟨rfl, hrest⟩
    | bool b =>
      cases b <;> exact absurd h (Number.text_append_ne_cons (by decide) (by decide) r _)
    | _ => exact absurd h (Number.text_append_ne_cons (by decide) (by decide) r _)
  | .str a, b, r, s, hr, hs, h => by
    cases b with
    | str b =>
      obtain ⟨rfl, hrest⟩ := quoteChars_append_inj h
      exact ⟨rfl, hrest⟩
    | num n => exact absurd h.symm (Number.text_append_ne_cons (by decide) (by decide) s _)
    | bool b => cases b <;> simp [chars, quoteChars] at h
    | _ => simp [chars, quoteChars] at h
  | .list xs, b, r, s, hr, hs, h => by
    cases b with
    | list ys =>
      simp only [chars, List.cons_append, List.append_assoc, List.nil_append, List.cons.injEq,
        true_and] at h
      obtain ⟨rfl, hrest⟩ := elementChars_append_inj h
      exact ⟨rfl, hrest⟩
    | num n => exact absurd h.symm (Number.text_append_ne_cons (by decide) (by decide) s _)
    | bool b => cases b <;> simp [chars] at h
    | _ => simp [chars, quoteChars] at h
  | .map fs, b, r, s, hr, hs, h => by
    cases b with
    | map gs =>
      simp only [chars, List.cons_append, List.append_assoc, List.nil_append, List.cons.injEq,
        true_and] at h
      obtain ⟨rfl, hrest⟩ := fieldChars_append_inj h
      exact ⟨rfl, hrest⟩
    | num n => exact absurd h.symm (Number.text_append_ne_cons (by decide) (by decide) s _)
    | bool b => cases b <;> simp [chars] at h
    | _ => simp [chars, quoteChars] at h

theorem elementChars_append_inj : ∀ {xs ys : List Value} {r s : List Char},
    elementChars xs ++ ']' :: r = elementChars ys ++ ']' :: s → xs = ys ∧ r = s
  | [], [], r, s, h => by simpa [elementChars] using h
  | [], y :: ys, r, s, h => by
    simp only [elementChars, List.nil_append, List.append_assoc] at h
    exact absurd h.symm (chars_append_ne_bracket y _ _)
  | x :: xs, [], r, s, h => by
    simp only [elementChars, List.nil_append, List.append_assoc] at h
    exact absurd h (chars_append_ne_bracket x _ _)
  | x :: xs, y :: ys, r, s, h => by
    simp only [elementChars, List.append_assoc] at h
    obtain ⟨rfl, hrest⟩ :=
      chars_append_inj (endsNumeral_elements xs r) (endsNumeral_elements ys s) h
    cases xs with
    | nil =>
      cases ys with
      | nil => simpa [elementChars] using hrest
      | cons y ys => simp [elementChars] at hrest
    | cons x' xs =>
      cases ys with
      | nil => simp [elementChars] at hrest
      | cons y ys =>
        obtain ⟨heq, hrs⟩ := @elementChars_append_inj (x' :: xs) (y :: ys) _ _
          (by simpa using hrest)
        exact ⟨by rw [heq], hrs⟩

theorem fieldChars_append_inj : ∀ {fs gs : List (String × Value)} {r s : List Char},
    fieldChars fs ++ '}' :: r = fieldChars gs ++ '}' :: s → fs = gs ∧ r = s
  | [], [], r, s, h => by simpa [fieldChars] using h
  | [], (l, y) :: gs, r, s, h => by simp [fieldChars, quoteChars] at h
  | (k, x) :: fs, [], r, s, h => by simp [fieldChars, quoteChars] at h
  | (k, x) :: fs, (l, y) :: gs, r, s, h => by
    simp only [fieldChars, List.append_assoc] at h
    obtain ⟨rfl, hvalue⟩ := quoteChars_append_inj h
    obtain ⟨rfl, hrest⟩ := chars_append_inj (endsNumeral_fields fs r) (endsNumeral_fields gs s)
      (List.append_cancel_left hvalue)
    cases fs with
    | nil =>
      cases gs with
      | nil => simpa [fieldChars] using hrest
      | cons g gs => simp [fieldChars] at hrest
    | cons f fs =>
      cases gs with
      | nil => simp [fieldChars] at hrest
      | cons g gs =>
        obtain ⟨heq, hrs⟩ := @fieldChars_append_inj (f :: fs) (g :: gs) _ _
          (by simpa using hrest)
        exact ⟨by rw [heq], hrs⟩

end

/-- Different values have different documents. -/
theorem text_injective : Function.Injective text := by
  intro a b h
  have hchars : a.chars ++ [] = b.chars ++ [] := by
    simpa [text] using congrArg String.toList h
  exact (chars_append_inj endsNumeral_nil endsNumeral_nil hchars).1

theorem groupKey_cases (v : Value) :
    (∃ n, v = .num n ∧ v.groupKey = "n:" ++ n.groupText) ∨
      (∃ s, v = .str s ∧ v.groupKey = "s:" ++ s) ∨ v.groupKey = "j:" ++ v.text := by
  cases v <;> simp [groupKey]

/-- Values of one group agree. -/
theorem agrees_of_groupKey_eq {a b : Value} (h : a.groupKey = b.groupKey) :
    a.agrees b = true := by
  obtain ⟨m, rfl, ha⟩ | ⟨s, rfl, ha⟩ | ha := a.groupKey_cases <;>
    obtain ⟨n, rfl, hb⟩ | ⟨t, rfl, hb⟩ | hb := b.groupKey_cases <;>
    rw [ha, hb] at h
  case inl.inl => exact Number.agrees_of_groupText_eq ((String.append_right_inj _).mp h)
  case inr.inl.inr.inl =>
    rw [(String.append_right_inj _).mp h]
    exact agrees_refl _
  case inr.inr.inr.inr =>
    rw [text_injective ((String.append_right_inj _).mp h)]
    exact agrees_refl _
  all_goals exact absurd (congrArg (fun text => text.toList.head?) h) (by simp)

/-- A text, a truth value, or a number that is an integer of small magnitude. -/
def IsExact : Value → Prop
  | .str _ | .bool _ => True
  | .num n => n.toBinary64.integer?.isSome
  | .null | .list _ | .map _ => False

theorem IsExact.isNull_eq_false {v : Value} (h : v.IsExact) : v.isNull = false := by
  cases v <;> first | rfl | exact h.elim

theorem IsPlain.isExact {v : Value} (h : v.IsPlain) : v.IsExact := by
  obtain ⟨s, rfl⟩ | ⟨b, rfl⟩ | ⟨n, rfl, hn⟩ := h.cases
  · trivial
  · trivial
  · exact Option.isSome_iff_exists.mpr ⟨n, Binary64.integer?_ofInt hn⟩

/-- The values that agree with an exact one are those of its group. -/
theorem groupKey_eq_iff {v w : Value} (hv : v.IsExact) :
    w.groupKey = v.groupKey ↔ w.agrees v = true := by
  refine ⟨agrees_of_groupKey_eq, fun h => ?_⟩
  cases v with
  | str s => cases w <;> simp_all [agrees, same]
  | bool b => cases w <;> simp_all [agrees, same]
  | num n =>
    cases w with
    | num m =>
      obtain ⟨k, hk⟩ := Option.isSome_iff_exists.mp hv
      have hm : m.toBinary64.integer? = n.toBinary64.integer? :=
        Binary64.integer?_congr (by simpa [agrees, Number.agrees, Binary64.same] using h)
      rw [groupKey, groupKey, Number.groupText, Number.groupText, hm, hk]
    | _ => simp [agrees, same] at h
  | null | list _ | map _ => exact hv.elim

end Value

end KeyedQuery
