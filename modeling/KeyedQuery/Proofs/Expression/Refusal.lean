import KeyedQuery.Proofs.Expression.Update

/-!
# Positions that cannot be read

A list position is read if it is below `2 ^ 64`. A text that spells a larger one out is refused, whatever
stands around it: the pieces of a written text do not leave a bracket open (`Token.Settles`), so the scanner
gets to the position and stops there (`Token.Refused`). So an update that is carried out was written from
changes whose paths can be read (`Patch.readable_of_parse`).
-/

namespace KeyedQuery

namespace Token

variable {s t : String}

/-! ## Settled and refused pieces -/

/-- The scanner is not inside a list index. -/
def Pending.IsOutside : Pending → Prop
  | .index _ => False
  | .idle | .word _ _ | .less | .greater => True

/-- Outside of list indexes, the piece leads out of those that it opens, as far as it is read. -/
def Settles (s : String) : Prop :=
  ∀ p : Pending, p.IsOutside → ∀ q ts, stepAll p s.toList = .ok (q, ts) → q.IsOutside

/-- Outside of list indexes, the piece is not read to its end. -/
def Refused (s : String) : Prop :=
  ∀ p : Pending, p.IsOutside → ∀ q ts, stepAll p s.toList ≠ .ok (q, ts)

theorem stepAll_append_eq_ok {p q : Pending} {ts : List Token} {xs ys : List Char}
    (h : stepAll p (xs ++ ys) = .ok (q, ts)) :
    ∃ r us vs, stepAll p xs = .ok (r, us) ∧ stepAll r ys = .ok (q, vs) := by
  induction xs generalizing p ts with
  | nil => exact ⟨p, [], ts, rfl, h⟩
  | cons c xs ih =>
    obtain ⟨r, us, vs, hstep, hrest, -⟩ := stepAll_cons_eq_ok h
    obtain ⟨r', us', vs', hxs, hys⟩ := ih hrest
    refine ⟨r', us ++ us', vs', ?_, hys⟩
    simp only [stepAll, hstep, hxs, bind, Except.bind]

theorem Settles.append (hs : Settles s) (ht : Settles t) : Settles (s ++ t) := by
  intro p hp q ts h
  rw [String.toList_append] at h
  obtain ⟨r, us, vs, hfirst, hrest⟩ := stepAll_append_eq_ok h
  exact ht r (hs p hp r us hfirst) q vs hrest

theorem Refused.append (hs : Refused s) (t : String) : Refused (s ++ t) := by
  intro p hp q ts h
  rw [String.toList_append] at h
  obtain ⟨r, us, vs, hfirst, -⟩ := stepAll_append_eq_ok h
  exact hs p hp r us hfirst

theorem Settles.append_refused (hs : Settles s) (ht : Refused t) : Refused (s ++ t) := by
  intro p hp q ts h
  rw [String.toList_append] at h
  obtain ⟨r, us, vs, hfirst, hrest⟩ := stepAll_append_eq_ok h
  exact ht r (hs p hp r us hfirst) q vs hrest

/-- A text that is refused as a piece does not scan. -/
theorem Refused.scan_ne (h : Refused s) (ts : List Token) : Token.scan s ≠ .ok ts := by
  have hall : ∀ (cs : List Char) (p : Pending) (ts : List Token), scanFrom p cs = .ok ts →
      ∃ q us, stepAll p cs = .ok (q, us) := by
    intro cs
    induction cs with
    | nil => exact fun p ts _ => ⟨p, [], rfl⟩
    | cons c cs ih =>
      intro p ts hscan
      rw [scanFrom] at hscan
      cases hstep : step p c with
      | error fault => simp [hstep, bind, Except.bind] at hscan
      | ok result =>
        obtain ⟨r, us⟩ := result
        rw [hstep] at hscan
        cases hrest : scanFrom r cs with
        | error fault => simp [hrest, bind, Except.bind] at hscan
        | ok more =>
          obtain ⟨q, vs, hq⟩ := ih r more hrest
          exact ⟨q, us ++ vs, by simp only [stepAll, hstep, hq, bind, Except.bind]⟩
  intro hscan
  obtain ⟨q, us, hq⟩ := hall _ _ _ hscan
  exact h .idle trivial q us hq

/-! ## Pieces without brackets -/

theorem isOutside_of_start {c : Char} (hc : c ≠ '[') {q : Pending} {ts : List Token}
    (h : start c = .ok (q, ts)) : q.IsOutside := by
  unfold start at h
  split at h
  all_goals first
    | exact absurd rfl hc
    | (obtain ⟨rfl, -⟩ := Prod.mk.inj (Except.ok.inj h); trivial)
    | skip
  split at h
  · obtain ⟨rfl, -⟩ := Prod.mk.inj (Except.ok.inj h)
    trivial
  · cases h

theorem isOutside_of_startAfter {t : Token} {c : Char} (hc : c ≠ '[') {q : Pending}
    {ts : List Token} (h : startAfter t c = .ok (q, ts)) : q.IsOutside := by
  unfold startAfter at h
  cases hstart : start c with
  | error fault => simp [hstart, Except.map] at h
  | ok result =>
    rw [hstart] at h
    obtain ⟨rfl, -⟩ := Prod.mk.inj (Except.ok.inj h)
    exact isOutside_of_start hc hstart

theorem isOutside_of_step {p q : Pending} {c : Char} {ts : List Token} (hp : p.IsOutside)
    (hc : c ≠ '[') (h : step p c = .ok (q, ts)) : q.IsOutside := by
  cases p with
  | idle => exact isOutside_of_start hc h
  | word kind spelled =>
    rw [step] at h
    split at h
    · obtain ⟨rfl, -⟩ := Prod.mk.inj (Except.ok.inj h)
      trivial
    · exact isOutside_of_startAfter hc h
  | index spelled => exact hp.elim
  | less =>
    rw [step] at h
    split at h
    · obtain ⟨rfl, -⟩ := Prod.mk.inj (Except.ok.inj h)
      trivial
    · split at h
      · obtain ⟨rfl, -⟩ := Prod.mk.inj (Except.ok.inj h)
        trivial
      · exact isOutside_of_startAfter hc h
  | greater =>
    rw [step] at h
    split at h
    · obtain ⟨rfl, -⟩ := Prod.mk.inj (Except.ok.inj h)
      trivial
    · exact isOutside_of_startAfter hc h

theorem settles_of_notMem (h : '[' ∉ s.toList) : Settles s := by
  have hall : ∀ (cs : List Char), '[' ∉ cs → ∀ (p q : Pending) (ts : List Token), p.IsOutside →
      stepAll p cs = .ok (q, ts) → q.IsOutside := by
    intro cs
    induction cs with
    | nil =>
      intro _ p q ts hp hall
      obtain ⟨rfl, -⟩ := Prod.mk.inj (Except.ok.inj hall)
      exact hp
    | cons c cs ih =>
      intro hnot p q ts hp hall
      obtain ⟨r, us, vs, hstep, hrest, -⟩ := stepAll_cons_eq_ok hall
      obtain ⟨hc, hnot⟩ := not_or.mp fun hmem => hnot (List.mem_cons.mpr hmem)
      exact ih hnot r q vs (isOutside_of_step hp (Ne.symm hc) hstep) hrest
  exact fun p hp q ts hq => hall _ h p q ts hp hq

theorem notMem_of_isWordChar {cs : List Char} (h : ∀ c ∈ cs, isWordChar c = true) : '[' ∉ cs :=
  fun hmem => absurd (h '[' hmem) (by decide +kernel)

theorem settles_nameToken (i : Nat) : Settles (Placeholders.nameToken i) := by
  refine settles_of_notMem ?_
  rw [Placeholders.nameToken, String.toList_append, List.mem_append]
  rintro (h | h)
  · exact absurd h (by decide)
  · exact notMem_of_isWordChar (fun c hc => isWordChar_of_isDigit (isDigit_of_mem_toString hc)) h

theorem settles_valueToken (i : Nat) : Settles (Placeholders.valueToken i) := by
  refine settles_of_notMem ?_
  rw [Placeholders.valueToken, String.toList_append, List.mem_append]
  rintro (h | h)
  · exact absurd h (by decide)
  · exact notMem_of_isWordChar (fun c hc => isWordChar_of_isDigit (isDigit_of_mem_toString hc)) h

/-! ## List positions -/

/-- An opening bracket is read from outside of list indexes. -/
theorem exists_step_bracket {p : Pending} (hp : p.IsOutside) :
    ∃ ts, step p '[' = .ok (.index [], ts) := by
  cases p with
  | idle => exact ⟨[], rfl⟩
  | word kind spelled =>
    refine ⟨[ofWord kind (String.ofList spelled.reverse)], ?_⟩
    rw [step, if_neg (by decide +kernel)]
    rfl
  | index spelled => exact hp.elim
  | less => exact ⟨[.comparator .lt], rfl⟩
  | greater => exact ⟨[.comparator .gt], rfl⟩

/-- A list position in brackets is read to the end, or refused if it is too large. -/
theorem stepAll_index_eq_ok {p q : Pending} (hp : p.IsOutside) {i : Nat} {ts : List Token}
    (h : stepAll p ("[" ++ toString i ++ "]").toList = .ok (q, ts)) :
    q = .idle ∧ (readIndex? (toString i).toList).isSome := by
  obtain ⟨us, hopen⟩ := exists_step_bracket hp
  have hdigits : ∀ c ∈ (toString i).toList, c.isDigit = true := fun c => isDigit_of_mem_toString
  rw [String.toList_append, String.toList_append, List.append_assoc] at h
  obtain ⟨r, ts', vs, hfirst, hrest⟩ := stepAll_append_eq_ok h
  obtain ⟨r', us', vs', hstep, hnil, -⟩ := stepAll_cons_eq_ok (show stepAll p ['['] = _ from hfirst)
  obtain ⟨rfl, -⟩ := Prod.mk.inj (Except.ok.inj (hopen.symm.trans hstep))
  obtain ⟨rfl, -⟩ := Prod.mk.inj (Except.ok.inj hnil)
  obtain ⟨r, us'', vs'', hmiddle, hlast⟩ := stepAll_append_eq_ok hrest
  rw [stepAll_index [] _ hdigits, List.append_nil] at hmiddle
  obtain ⟨rfl, -⟩ := Prod.mk.inj (Except.ok.inj hmiddle)
  obtain ⟨r, ws, ws', hclose, hnil, -⟩ :=
    stepAll_cons_eq_ok (show stepAll (.index (toString i).toList.reverse) [']'] = _ from hlast)
  obtain ⟨rfl, -⟩ := Prod.mk.inj (Except.ok.inj hnil)
  rw [step, if_pos rfl, List.reverse_reverse] at hclose
  cases hread : readIndex? (toString i).toList with
  | none =>
    rw [hread] at hclose
    cases hclose
  | some n =>
    rw [hread] at hclose
    exact ⟨(Prod.mk.inj (Except.ok.inj hclose)).1.symm, rfl⟩

theorem settles_index (i : Nat) : Settles ("[" ++ toString i ++ "]") := by
  intro p hp q ts h
  rw [(stepAll_index_eq_ok hp h).1]
  trivial

theorem refused_index {i : Nat} (hi : Nat.pow 2 64 ≤ i) : Refused ("[" ++ toString i ++ "]") := by
  intro p hp q ts h
  have hsome := (stepAll_index_eq_ok hp h).2
  rw [readIndex?_toString, if_neg (Nat.not_lt.mpr hi)] at hsome
  cases hsome

/-! ## Pieces with separators -/

theorem settles_intercalate {separator : String} (hs : Settles separator) : ∀ {texts : List String},
    (∀ text ∈ texts, Settles text) → Settles (separator.intercalate texts)
  | [], _ => settles_of_notMem (by simp)
  | [text], h => by
    rw [String.intercalate_singleton]
    exact h text List.mem_cons_self
  | text :: text' :: texts, h => by
    rw [String.intercalate_cons_cons]
    exact ((h text List.mem_cons_self).append hs).append
      (settles_intercalate hs fun s hs => h s (List.mem_cons_of_mem text hs))

theorem refused_intercalate {separator : String} (hs : Settles separator) : ∀ {texts : List String},
    (∀ text ∈ texts, Settles text) → (∃ text ∈ texts, Refused text) →
      Refused (separator.intercalate texts)
  | [], _, h => by
    obtain ⟨text, htext, -⟩ := h
    cases htext
  | [text], _, h => by
    obtain ⟨text', htext', href⟩ := h
    obtain rfl := List.mem_singleton.mp htext'
    rwa [String.intercalate_singleton]
  | text :: text' :: texts, hall, h => by
    rw [String.intercalate_cons_cons]
    obtain ⟨bad, hbad, href⟩ := h
    rcases List.mem_cons.mp hbad with rfl | hbad
    · exact (href.append separator).append _
    · exact ((hall text List.mem_cons_self).append hs).append_refused
        (refused_intercalate hs (fun s hs => hall s (List.mem_cons_of_mem text hs)) ⟨bad, hbad, href⟩)

end Token

/-! ## Updates -/

open Token Placeholders

theorem Placeholders.Names.settles {r : Placeholders} {token field : String}
    (h : r.Names token field) : Settles token := by
  obtain ⟨i, rfl, -⟩ := h
  exact settles_nameToken i

theorem Placeholders.Holds.settles {r : Placeholders} {token : String} {v : Value}
    (h : r.Holds token v) : Settles token := by
  obtain ⟨i, rfl, -⟩ := h
  exact settles_valueToken i

namespace Change

theorem settles_joint (path : Path) : Settles (joint path) := by
  unfold joint
  split
  · exact settles_of_notMem (by decide)
  · exact settles_of_notMem (by simp)

/-- A path is refused if one of its positions is too large. -/
theorem writes_path_refused : ∀ path : Path, Writes (writePath path) fun _ text =>
    Settles text ∧ (¬path.Readable → Refused text)
  | [] => Writes.pure fun _ =>
    ⟨settles_of_notMem (by simp), fun h => absurd (fun i hi => by simp at hi) h⟩
  | .index i :: rest => by
    refine (writes_path_refused rest).bind fun more => Writes.pure fun _ hmore => ?_
    have hfront := (settles_index i).append (settles_joint rest)
    refine ⟨hfront.append hmore.1, fun hpath => ?_⟩
    by_cases hi : i < Nat.pow 2 64
    · refine hfront.append_refused (hmore.2 fun hrest => hpath fun j hj => ?_)
      rcases List.mem_cons.mp hj with heq | hj
      · obtain rfl := Segment.index.inj heq
        exact hi
      · exact hrest j hj
    · exact ((refused_index (Nat.not_lt.mp hi)).append _).append _
  | .key k :: rest => by
    refine (writes_name k).bind fun token => ?_
    refine (writes_path_refused rest).bind fun more => Writes.pure fun r hmore hname => ?_
    have hfront := hname.settles.append (settles_joint rest)
    refine ⟨hfront.append hmore.1, fun hpath => ?_⟩
    refine hfront.append_refused (hmore.2 fun hrest => hpath fun j hj => ?_)
    exact hrest j ((List.mem_cons.mp hj).resolve_left (by simp))

/-- The texts of all sections. -/
def Sections.texts (s : Sections) : List String :=
  s.sets ++ s.removes ++ s.adds

/-- A change is written to one of the sections. -/
theorem writes_change_refused (s : Sections) (c : Change) :
    Writes (write s c) fun _ s' => ∃ text, s'.texts.Perm (text :: s.texts) ∧ Settles text ∧
      (¬c.path.Readable → Refused text) := by
  cases c with
  | set path v =>
    refine (writes_path_refused path).bind fun place => ?_
    refine (writes_sharedValue v).bind fun token => Writes.pure fun r hv hplace => ?_
    have hsign : Settles " = " := settles_of_notMem (by decide)
    have hend := hsign.append hv.settles
    refine ⟨place ++ " = " ++ token, ?_, ?_, fun hpath => ?_⟩
    · simp only [Sections.texts, List.append_assoc]
      exact List.perm_middle
    · rw [String.append_assoc]
      exact hplace.1.append hend
    · rw [String.append_assoc]
      exact (hplace.2 hpath).append _
  | remove path =>
    refine (writes_path_refused path).bind fun place => Writes.pure fun r hplace => ?_
    refine ⟨place, ?_, hplace.1, hplace.2⟩
    simp only [Sections.texts]
    rw [← List.append_assoc, List.append_assoc (s.sets ++ s.removes)]
    exact List.perm_middle
  | add path n =>
    refine (writes_path_refused path).bind fun place => ?_
    refine (writes_sharedValue (.num n)).bind fun token => Writes.pure fun r hv hplace => ?_
    have hblank : Settles " " := settles_of_notMem (by decide)
    have hend := hblank.append hv.settles
    refine ⟨place ++ " " ++ token, ?_, ?_, fun hpath => ?_⟩
    · simp only [Sections.texts]
      rw [← List.append_assoc]
      exact List.perm_append_singleton _ _
    · rw [String.append_assoc]
      exact hplace.1.append hend
    · rw [String.append_assoc]
      exact (hplace.2 hpath).append _

/-- If the path of a change cannot be read, the text of some section is refused. -/
theorem writes_changes_refused : ∀ (changes : List Change) (s : Sections),
    Writes (changes.foldlM write s) fun _ s' => (∀ text ∈ s.texts, Settles text) →
      (∀ text ∈ s'.texts, Settles text) ∧
        ((∃ text ∈ s.texts, Refused text) ∨ (∃ c ∈ changes, ¬c.path.Readable) →
          ∃ text ∈ s'.texts, Refused text)
  | [], s => Writes.pure fun _ hs => ⟨hs, fun h => h.resolve_right (by simp)⟩
  | c :: changes, s => by
    rw [List.foldlM_cons]
    refine (writes_change_refused s c).bind fun s' =>
      (writes_changes_refused changes s').imp fun r s'' hrest hfirst hs => ?_
    obtain ⟨text, hperm, hsettles, hrefused⟩ := hfirst
    obtain ⟨hall, hbad⟩ := hrest fun t ht => by
      rcases List.mem_cons.mp (hperm.mem_iff.mp ht) with rfl | ht
      · exact hsettles
      · exact hs t ht
    refine ⟨hall, fun h => hbad ?_⟩
    rcases h with ⟨t, ht, hr⟩ | ⟨d, hd, hpath⟩
    · exact .inl ⟨t, hperm.mem_iff.mpr (List.mem_cons_of_mem text ht), hr⟩
    · rcases List.mem_cons.mp hd with rfl | hd
      · exact .inl ⟨text, hperm.mem_iff.mpr List.mem_cons_self, hrefused hpath⟩
      · exact .inr ⟨d, hd, hpath⟩

/-- A section's text settles if its actions do, and it is refused if one of them is. -/
theorem sectionText_refused (keyword : String) (hkeyword : Settles keyword) {actions : List String}
    (h : ∀ text ∈ actions, Settles text) :
    (∀ text ∈ sectionText keyword actions, Settles text) ∧
      ((∃ text ∈ actions, Refused text) → ∃ text ∈ sectionText keyword actions, Refused text) := by
  have hcomma : Settles ", " := settles_of_notMem (by decide)
  have hfront : Settles (keyword ++ " ") := hkeyword.append (settles_of_notMem (by decide))
  unfold sectionText
  split
  · rename_i hempty
    rw [List.isEmpty_iff.mp hempty]
    simp
  · simp only [List.mem_singleton, forall_eq, exists_eq_left]
    exact ⟨hfront.append (settles_intercalate hcomma h), fun hbad =>
      hfront.append_refused (refused_intercalate hcomma h hbad)⟩

theorem Sections.refused_text {s : Sections} (h : ∀ text ∈ s.texts, Settles text)
    (hbad : ∃ text ∈ s.texts, Refused text) : Refused s.text := by
  simp only [Sections.texts, List.mem_append] at h hbad
  obtain ⟨hsets, hsets'⟩ := sectionText_refused "SET" (settles_of_notMem (by decide))
    fun text ht => h text (.inl (.inl ht))
  obtain ⟨hremoves, hremoves'⟩ :=
    sectionText_refused "REMOVE" (settles_of_notMem (by decide))
      fun text ht => h text (.inl (.inr ht))
  obtain ⟨hadds, hadds'⟩ := sectionText_refused "ADD" (settles_of_notMem (by decide))
    fun text ht => h text (.inr ht)
  refine refused_intercalate (settles_of_notMem (by decide)) (fun text ht => ?_) ?_
  · rcases List.mem_append.mp ht with ht | ht
    · exact (List.mem_append.mp ht).elim (hsets text) (hremoves text)
    · exact hadds text ht
  · obtain ⟨text, ht, hr⟩ := hbad
    rcases ht with (ht | ht) | ht
    · obtain ⟨t, ht, hr⟩ := hsets' ⟨text, ht, hr⟩
      exact ⟨t, List.mem_append_left _ (List.mem_append_left _ ht), hr⟩
    · obtain ⟨t, ht, hr⟩ := hremoves' ⟨text, ht, hr⟩
      exact ⟨t, List.mem_append_left _ (List.mem_append_right _ ht), hr⟩
    · obtain ⟨t, ht, hr⟩ := hadds' ⟨text, ht, hr⟩
      exact ⟨t, List.mem_append_right _ ht, hr⟩

end Change

/-- If the patch of some changes can be read, their paths can be. -/
theorem Patch.readable_of_parse {changes : List Change}
    (hrooted : ∀ c ∈ changes, ∃ k rest, c.path = .key k :: rest) {actions : List UpdateAction}
    (h : UpdateAction.parse (ofChanges changes).attributes (ofChanges changes).expression =
      .ok actions) : ∀ c ∈ changes, c.Readable := by
  intro c hc
  by_contra hnot
  have hpath : ¬c.path.Readable := fun hreadable => by
    obtain ⟨k, rest, hcons⟩ := hrooted c hc
    exact hnot ⟨k, rest, hcons, hreadable⟩
  obtain ⟨hsettles, hrefused⟩ :=
    (Change.writes_changes_refused changes {}).run (by simp [Change.Sections.texts])
  have htext := Change.Sections.refused_text hsettles (hrefused (.inr ⟨c, hc, hpath⟩))
  rw [UpdateAction.parse] at h
  cases hscan : Token.scan (ofChanges changes).expression with
  | error fault =>
    rw [hscan] at h
    cases h
  | ok tokens => exact htext.scan_ne tokens hscan

end KeyedQuery
