import KeyedQuery.Expression.Placeholders
import KeyedQuery.Expression.Token
import KeyedQuery.Proofs.Number.Text

/-!
# Scanning what has been written

Expressions are written as concatenations of pieces: placeholders, list indexes, keywords and
separators. `Token.Reads` says which tokens a piece scans to, whatever follows it that does not go
on with its last word; `Token.Closes` says the same for a piece that no following text can change.
Pieces compose (`Token.Reads.append`, `Token.Closes.append`), and a whole text that reads as some
tokens scans to them (`Token.Reads.scan`).
-/

namespace KeyedQuery

namespace Token

variable {s t : String} {ts us : List Token}

/-! ## Scanning a piece -/

/-- Read the characters of a piece, up to what is pending behind it. -/
def stepAll : Pending → List Char → Checked (Pending × List Token)
  | p, [] => .ok (p, [])
  | p, c :: rest => do
    let (p, tokens) ← step p c
    let (p, more) ← stepAll p rest
    .ok (p, tokens ++ more)

theorem scanFrom_cons {p q : Pending} {c : Char} (h : step p c = .ok (q, ts)) (rest : List Char) :
    scanFrom p (c :: rest) = (scanFrom q rest).map (ts ++ ·) := by
  rw [scanFrom, h]
  show (scanFrom q rest).bind _ = _
  cases scanFrom q rest <;> rfl

theorem stepAll_cons_eq_ok {p q : Pending} {c : Char} {rest : List Char}
    (h : stepAll p (c :: rest) = .ok (q, ts)) :
    ∃ r us vs, step p c = .ok (r, us) ∧ stepAll r rest = .ok (q, vs) ∧ ts = us ++ vs := by
  rw [stepAll] at h
  cases hstep : step p c with
  | error fault => simp [hstep, bind, Except.bind] at h
  | ok result =>
    obtain ⟨r, us⟩ := result
    cases hrest : stepAll r rest with
    | error fault => simp [hstep, hrest, bind, Except.bind] at h
    | ok result =>
      obtain ⟨q', vs⟩ := result
      simp only [hstep, hrest, bind, Except.bind, Except.ok.injEq, Prod.mk.injEq] at h
      obtain ⟨rfl, rfl⟩ := h
      exact ⟨r, us, vs, rfl, hrest, rfl⟩

theorem scanFrom_append {p q : Pending} {cs : List Char} (h : stepAll p cs = .ok (q, ts))
    (rest : List Char) : scanFrom p (cs ++ rest) = (scanFrom q rest).map (ts ++ ·) := by
  induction cs generalizing p ts with
  | nil =>
    obtain ⟨rfl, rfl⟩ := Prod.mk.inj (Except.ok.inj h)
    cases hrest : scanFrom p rest <;> simp [hrest, Except.map]
  | cons c cs ih =>
    obtain ⟨r, us, vs, hstep, hrest, rfl⟩ := stepAll_cons_eq_ok h
    rw [List.cons_append, scanFrom_cons hstep, ih hrest]
    cases scanFrom q rest <;> simp [Except.map]

/-! ## Pieces -/

/-- What may follow a word: nothing, or a character that ends it. -/
def EndsWord (rest : List Char) : Prop :=
  ∀ c ∈ rest.head?, isWordChar c = false

instance : ∀ rest : List Char, Decidable (EndsWord rest)
  | [] => .isTrue (by simp [EndsWord])
  | c :: _ => decidable_of_iff (isWordChar c = false) (by simp [EndsWord])

/-- The piece reads as the tokens if what follows ends its last word. -/
def Reads (s : String) (ts : List Token) : Prop :=
  ∀ rest, EndsWord rest → scanFrom .idle (s.toList ++ rest) = (scanFrom .idle rest).map (ts ++ ·)

/-- The piece reads as the tokens whatever follows. -/
def Closes (s : String) (ts : List Token) : Prop :=
  ∀ rest, scanFrom .idle (s.toList ++ rest) = (scanFrom .idle rest).map (ts ++ ·)

theorem endsWord_append (h : EndsWord t.toList) (rest : List Char) (hrest : EndsWord rest) :
    EndsWord (t.toList ++ rest) := by
  intro c hc
  cases ht : t.toList with
  | nil => exact hrest c (by simpa [ht] using hc)
  | cons d ds => exact h c (by simpa [ht] using hc)

theorem EndsWord.append_left {cs : List Char} (h : EndsWord cs) (hne : cs ≠ [])
    (rest : List Char) : EndsWord (cs ++ rest) := by
  intro c hc
  obtain ⟨d, ds, rfl⟩ := List.exists_cons_of_ne_nil hne
  exact h c hc

theorem endsWord_toList_append (h : EndsWord s.toList) (hne : s.toList ≠ []) (t : String) :
    EndsWord (s ++ t).toList := by
  rw [String.toList_append]
  exact h.append_left hne _

theorem Closes.reads (h : Closes s ts) : Reads s ts :=
  fun rest _ => h rest

theorem closes_of_stepAll (h : stepAll .idle s.toList = .ok (.idle, ts)) : Closes s ts :=
  fun rest => scanFrom_append h rest

theorem closes_empty : Closes "" [] :=
  closes_of_stepAll rfl

theorem map_append_map (r : Checked (List Token)) :
    (r.map (us ++ ·)).map (ts ++ ·) = r.map (ts ++ us ++ ·) := by
  cases r <;> simp [Except.map]

/-- Pieces follow each other if the second ends the first one's last word. -/
theorem Reads.append (hs : Reads s ts) (ht : Reads t us) (hend : EndsWord t.toList) :
    Reads (s ++ t) (ts ++ us) := by
  intro rest hrest
  rw [String.toList_append, List.append_assoc, hs _ (endsWord_append hend rest hrest),
    ht rest hrest, map_append_map]

/-- Anything may follow a closed piece. -/
theorem Closes.append (hs : Closes s ts) (ht : Reads t us) : Reads (s ++ t) (ts ++ us) := by
  intro rest hrest
  rw [String.toList_append, List.append_assoc, hs, ht rest hrest, map_append_map]

/-- A closed piece closes the one before it. -/
theorem Reads.append_closes (hs : Reads s ts) (ht : Closes t us) (hend : EndsWord t.toList)
    (hne : t.toList ≠ []) : Closes (s ++ t) (ts ++ us) := by
  intro rest
  rw [String.toList_append, List.append_assoc, hs _ (hend.append_left hne rest), ht,
    map_append_map]

/-- A text that reads as some tokens scans to them. -/
theorem Reads.scan (h : Reads s ts) : Token.scan s = .ok ts := by
  have hnil := h [] (by simp [EndsWord])
  rw [List.append_nil] at hnil
  rw [Token.scan, hnil]
  simp [scanFrom, finish, Except.map]

/-! ## Words -/

theorem stepAll_word (kind : WordKind) (spelled : List Char) :
    ∀ cs : List Char, (∀ c ∈ cs, isWordChar c = true) →
      stepAll (.word kind spelled) cs = .ok (.word kind (cs.reverse ++ spelled), [])
  | [], _ => rfl
  | c :: cs, h => by
    have hc : isWordChar c = true := h c List.mem_cons_self
    have hstep : step (.word kind spelled) c = .ok (.word kind (c :: spelled), []) := by
      rw [step, if_pos hc]
    rw [stepAll, hstep]
    show (stepAll (.word kind (c :: spelled)) cs).bind _ = _
    rw [stepAll_word kind (c :: spelled) cs fun d hd => h d (List.mem_cons_of_mem c hd)]
    simp [Except.bind]

theorem scanFrom_word (kind : WordKind) (spelled rest : List Char) (h : EndsWord rest) :
    scanFrom (.word kind spelled) rest =
      (scanFrom .idle rest).map ([ofWord kind (String.ofList spelled.reverse)] ++ ·) := by
  cases rest with
  | nil => rfl
  | cons c rest =>
    have hc : isWordChar c = false := h c rfl
    have hstep : step (.word kind spelled) c =
        startAfter (ofWord kind (String.ofList spelled.reverse)) c := by
      rw [step, if_neg (by simp [hc])]
    rw [scanFrom, scanFrom, hstep, startAfter]
    show Except.bind (Except.map _ _) _ = Except.map _ (Except.bind (start c) _)
    cases start c with
    | error fault => rfl
    | ok result =>
      obtain ⟨p, tokens⟩ := result
      show (scanFrom p rest).bind _ = Except.map _ ((scanFrom p rest).bind _)
      cases scanFrom p rest <;> rfl

theorem isWordChar_of_isDigit {c : Char} (h : c.isDigit = true) : isWordChar c = true := by
  have hrange : c.toNat < 128 := by
    simp only [Char.isDigit, Bool.and_eq_true, decide_eq_true_eq] at h
    have := UInt32.le_iff_toNat_le.mp h.2
    change c.toNat ≤ 57 at this
    omega
  simp [isWordChar, isAlphanumeric, hrange, Char.isAlphanum, h]

/-- A sign and word characters read as one word. -/
theorem reads_word (kind : WordKind) (sign : Char) (letters : List Char)
    (hsign : start sign = .ok (.word kind [sign], []))
    (hletters : ∀ c ∈ letters, isWordChar c = true) (hs : s.toList = sign :: letters) :
    Reads s [ofWord kind s] := by
  intro rest hrest
  have hall : stepAll .idle (sign :: letters) =
      .ok (.word kind (letters.reverse ++ [sign]), []) := by
    rw [stepAll, show step .idle sign = start sign from rfl, hsign]
    show (stepAll (.word kind [sign]) letters).bind _ = _
    rw [stepAll_word kind [sign] letters hletters]
    rfl
  rw [hs, scanFrom_append hall, scanFrom_word _ _ _ hrest]
  have hspelled : String.ofList (letters.reverse ++ [sign]).reverse = s := by
    rw [List.reverse_append, List.reverse_reverse]
    exact String.ext (by rw [String.toList_ofList]; exact hs.symm)
  rw [hspelled]
  cases scanFrom .idle rest <;> rfl

theorem reads_nameToken (i : Nat) :
    Reads (Placeholders.nameToken i) [.name (Placeholders.nameToken i)] := by
  refine reads_word .name '#' ('f' :: (toString i).toList) rfl ?_ String.toList_append
  intro c hc
  rcases List.mem_cons.mp hc with rfl | hc
  · decide
  · exact isWordChar_of_isDigit (isDigit_of_mem_toString hc)

theorem reads_valueToken (i : Nat) :
    Reads (Placeholders.valueToken i) [.value (Placeholders.valueToken i)] := by
  refine reads_word .value ':' ('v' :: (toString i).toList) rfl ?_ String.toList_append
  intro c hc
  rcases List.mem_cons.mp hc with rfl | hc
  · decide
  · exact isWordChar_of_isDigit (isDigit_of_mem_toString hc)

theorem endsWord_nameToken (i : Nat) : EndsWord (Placeholders.nameToken i).toList := by
  rw [Placeholders.nameToken, String.toList_append]
  intro c hc
  obtain rfl : '#' = c := by simpa using hc
  decide

theorem endsWord_valueToken (i : Nat) : EndsWord (Placeholders.valueToken i).toList := by
  rw [Placeholders.valueToken, String.toList_append]
  intro c hc
  obtain rfl : ':' = c := by simpa using hc
  decide

/-! ## List indexes -/

theorem stepAll_index (spelled : List Char) :
    ∀ cs : List Char, (∀ c ∈ cs, c.isDigit = true) →
      stepAll (.index spelled) cs = .ok (.index (cs.reverse ++ spelled), [])
  | [], _ => rfl
  | c :: cs, h => by
    have hc : c ≠ ']' := by
      rintro rfl
      exact absurd (h ']' List.mem_cons_self) (by decide)
    rw [stepAll, step, if_neg hc]
    show (stepAll (.index (c :: spelled)) cs).bind _ = _
    rw [stepAll_index (c :: spelled) cs fun d hd => h d (List.mem_cons_of_mem c hd)]
    simp [Except.bind]

/-- A number in decimal is a list index, unless it is too large for one. -/
theorem readIndex?_toString (i : Nat) :
    readIndex? (toString i).toList = if i < Nat.pow 2 64 then some i else none := by
  have hdigits : ∀ c ∈ (toString i).toList, c.isDigit = true := fun c => isDigit_of_mem_toString
  have hne : (toString i).toList ≠ [] := by
    rw [toList_toString_nat]
    exact Nat.toDigits_ne_nil
  have hhead : (toString i).toList.head? ≠ some '+' := fun h =>
    absurd (hdigits '+' (List.mem_of_head? h)) (by decide)
  have hvalue : (toString i).toList.foldl (fun n c => 10 * n + (c.toNat - '0'.toNat)) 0 = i := by
    rw [toList_toString_nat, ← Nat.ofDigitChars_eq_foldl, Nat.ofDigitChars_ten_toDigits]
  unfold readIndex?
  dsimp only
  rw [if_neg hhead, if_neg, hvalue]
  simpa [hne] using hdigits

/-- A list index in brackets reads as that index. -/
theorem closes_index {i : Nat} (hi : i < Nat.pow 2 64) :
    Closes ("[" ++ toString i ++ "]") [.index i] := by
  intro rest
  have hdigits : ∀ c ∈ (toString i).toList, c.isDigit = true := fun c => isDigit_of_mem_toString
  have hread : step (.index (toString i).toList.reverse) ']' = .ok (.idle, [.index i]) := by
    rw [step, if_pos rfl, List.reverse_reverse, readIndex?_toString, if_pos hi]
  rw [String.toList_append, String.toList_append, List.append_assoc, List.append_assoc]
  show scanFrom .idle ('[' :: ((toString i).toList ++ (']' :: rest))) = _
  have hopen : step .idle '[' = .ok (.index [], []) := rfl
  rw [scanFrom_cons hopen, scanFrom_append (stepAll_index [] _ hdigits),
    List.append_nil, scanFrom_cons hread, map_append_map, map_append_map]
  rfl

end Token

end KeyedQuery
