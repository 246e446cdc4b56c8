import KeyedQuery.Proofs.Expression.Update
import KeyedQuery.Proofs.Expression.Usage
import KeyedQuery.Proofs.Patch.Repetition

/-!
# What patches spell out

An update text and its tables go together too (`Patch.spells_between`), though its actions are put
together section by section, not in the order in which their placeholders were handed out, and equal
values share one. `Placeholders.Uses` says of a text only which placeholders it has: those that were
handed out while it was written, and perhaps earlier ones.
-/

namespace KeyedQuery

open Placeholders

variable {p q r : Placeholders} {ts us : List Token}

/-! ## Placeholders of a text -/

namespace Placeholders

/-- The text has every placeholder that was handed out since the first state, and no other than those of
the second. -/
structure Uses (p q : Placeholders) (ts : List Token) : Prop where
  names_le : p.names.length ≤ q.names.length
  values_le : p.values.length ≤ q.values.length
  nodup : p.names.Nodup → q.names.Nodup
  names : ∀ token ∈ Token.names ts, ∃ i, i < q.names.length ∧ token = nameToken i
  values : ∀ token ∈ Token.values ts, ∃ i, i < q.values.length ∧ token = valueToken i
  mem_names : ∀ i, p.names.length ≤ i → i < q.names.length → nameToken i ∈ Token.names ts
  mem_values : ∀ i, p.values.length ≤ i → i < q.values.length → valueToken i ∈ Token.values ts
  plain : ∀ t ∈ ts, t.IsPlain

namespace Uses

theorem refl (p : Placeholders) : Uses p p [] where
  names_le := Nat.le_refl _
  values_le := Nat.le_refl _
  nodup := id
  names := by simp [Token.names]
  values := by simp [Token.values]
  mem_names := by omega
  mem_values := by omega
  plain := by simp

theorem append (h : Uses p q ts) (h' : Uses q r us) : Uses p r (ts ++ us) where
  names_le := h.names_le.trans h'.names_le
  values_le := h.values_le.trans h'.values_le
  nodup hp := h'.nodup (h.nodup hp)
  names token ht := by
    rw [Token.names_append, List.mem_append] at ht
    rcases ht with ht | ht
    · obtain ⟨i, hi, rfl⟩ := h.names token ht
      exact ⟨i, hi.trans_le h'.names_le, rfl⟩
    · exact h'.names token ht
  values token ht := by
    rw [Token.values_append, List.mem_append] at ht
    rcases ht with ht | ht
    · obtain ⟨i, hi, rfl⟩ := h.values token ht
      exact ⟨i, hi.trans_le h'.values_le, rfl⟩
    · exact h'.values token ht
  mem_names i hpi hir := by
    rw [Token.names_append, List.mem_append]
    rcases Nat.lt_or_ge i q.names.length with hiq | hqi
    · exact Or.inl (h.mem_names i hpi hiq)
    · exact Or.inr (h'.mem_names i hqi hir)
  mem_values i hpi hir := by
    rw [Token.values_append, List.mem_append]
    rcases Nat.lt_or_ge i q.values.length with hiq | hqi
    · exact Or.inl (h.mem_values i hpi hiq)
    · exact Or.inr (h'.mem_values i hqi hir)
  plain t ht := (List.mem_append.mp ht).elim (h.plain t) (h'.plain t)

/-- The order of the text does not matter, nor do words and signs in it. -/
theorem congr (h : Uses p q ts) (hnames : ∀ token, token ∈ Token.names us ↔ token ∈ Token.names ts)
    (hvalues : ∀ token, token ∈ Token.values us ↔ token ∈ Token.values ts)
    (hplain : ∀ t ∈ us, t.IsPlain) : Uses p q us where
  names_le := h.names_le
  values_le := h.values_le
  nodup := h.nodup
  names token ht := h.names token ((hnames token).mp ht)
  values token ht := h.values token ((hvalues token).mp ht)
  mem_names i hp hq := (hnames _).mpr (h.mem_names i hp hq)
  mem_values i hp hq := (hvalues _).mpr (h.mem_values i hp hq)
  plain := hplain

/-- The tables of a text that was started without any go with it. -/
theorem fits (h : Uses {} q ts) : q.attributes.Fits ts := by
  refine fits_attributes h.plain (h.nodup List.nodup_nil) (fun token => ?_) fun token => ?_
  · rw [← Token.mem_names]
    refine ⟨h.names token, ?_⟩
    rintro ⟨i, hi, rfl⟩
    exact h.mem_names i (Nat.zero_le i) hi
  · rw [← Token.mem_values]
    refine ⟨h.values token, ?_⟩
    rintro ⟨i, hi, rfl⟩
    exact h.mem_values i (Nat.zero_le i) hi

end Uses

theorem uses_old_value {i : Nat} (hi : i < p.values.length) : Uses p p [.value (valueToken i)] where
  names_le := Nat.le_refl _
  values_le := Nat.le_refl _
  nodup := id
  names := by simp [Token.names]
  values := by simpa [Token.values] using ⟨i, hi, rfl⟩
  mem_names := by omega
  mem_values := by omega
  plain := by simp [Token.IsPlain]

theorem uses_old_name {i : Nat} (hi : i < p.names.length) : Uses p p [.name (nameToken i)] where
  names_le := Nat.le_refl _
  values_le := Nat.le_refl _
  nodup := id
  names := by simpa [Token.names] using ⟨i, hi, rfl⟩
  values := by simp [Token.values]
  mem_names := by omega
  mem_values := by omega
  plain := by simp [Token.IsPlain]

theorem uses_name (field : String) (p : Placeholders) :
    Uses p (name field p).2 [.name (name field p).1] := by
  unfold name
  cases hi : p.names.idxOf? field with
  | some i => exact uses_old_name (List.idxOf?_eq_some_iff.mp hi).1
  | none =>
    have hnew : field ∉ p.names := List.idxOf?_eq_none_iff.mp hi
    refine ⟨by simp, Nat.le_refl _, fun hp => ?_, ?_, ?_, ?_, ?_, ?_⟩
    · simpa using hp.concat hnew
    · intro token ht
      exact ⟨p.names.length, by simp, by simpa [Token.names] using ht⟩
    · simp [Token.values]
    · intro i hpi hiq
      obtain rfl : i = p.names.length := by simp at hiq; omega
      simp [Token.names]
    · simp; omega
    · simp [Token.IsPlain]

/-- A shared value has a token already, or gets one. -/
theorem uses_sharedValue (v : Value) (hp : p.SharesByText) :
    Uses p (sharedValue v.text v p).2 [.value (sharedValue v.text v p).1] := by
  unfold sharedValue
  cases ht : Fields.get? p.shared v.text with
  | some token =>
    obtain ⟨w, ⟨i, rfl, hi⟩, -⟩ := hp _ _ ht
    exact uses_old_value (List.getElem?_eq_some_iff.mp hi).1
  | none =>
    refine ⟨Nat.le_refl _, by simp [value], id, ?_, ?_, ?_, ?_, ?_⟩
    · simp [Token.names]
    · intro token ht
      exact ⟨p.values.length, by simp [value], by simpa [Token.values, value] using ht⟩
    · simp [value]; omega
    · intro i hpi hiq
      obtain rfl : i = p.values.length := by simp [value] at hiq; omega
      simp [Token.values, value]
    · simp [Token.IsPlain]

end Placeholders

/-! ## Changes -/

namespace Change

/-- The steps of a path are written with the placeholders of its names. -/
theorem uses_steps : ∀ (path : Path), path.Readable → ∀ p,
    ∃ ts, Token.Reads (joint path ++ (writePath path p).1) ts ∧
      Token.EndsWord (joint path ++ (writePath path p).1).toList ∧ Uses p (writePath path p).2 ts
  | [], _, p => by
    refine ⟨[], Token.closes_empty.reads, ?_, Uses.refl p⟩
    show Token.EndsWord ("" ++ "").toList
    simp [Token.EndsWord]
  | .index i :: rest, h, p => by
    obtain ⟨ts, hreads, -, huses⟩ := uses_steps rest h.tail p
    have hindex := (Token.closes_index (h i List.mem_cons_self)).append hreads
    have htext : joint (.index i :: rest) ++ (writePath (.index i :: rest) p).1 =
        "[" ++ toString i ++ "]" ++ (joint rest ++ (writePath rest p).1) := by
      show "" ++ ("[" ++ toString i ++ "]" ++ joint rest ++ (writePath rest p).1) = _
      simp [String.append_assoc]
    rw [htext]
    refine ⟨_, hindex, ?_, huses.congr (by simp [Token.names]) (by simp [Token.values]) ?_⟩
    · rw [String.append_assoc, String.append_assoc]
      exact Token.endsWord_toList_append (by decide) (by decide) _
    · exact List.forall_mem_cons.mpr ⟨by simp [Token.IsPlain], huses.plain⟩
  | .key k :: rest, h, p => by
    obtain ⟨ts, hreads, hend, huses⟩ := uses_steps rest h.tail (name k p).2
    have hdot : Token.Closes "." [.dot] := Token.closes_of_stepAll rfl
    have hname := hdot.append ((reads_name k p).append hreads hend)
    have htext : joint (.key k :: rest) ++ (writePath (.key k :: rest) p).1 =
        "." ++ ((name k p).1 ++ (joint rest ++ (writePath rest (name k p).2).1)) := by
      show "." ++ ((name k p).1 ++ joint rest ++ (writePath rest (name k p).2).1) = _
      simp [String.append_assoc]
    rw [htext]
    have hboth := (uses_name k p).append huses
    refine ⟨_, hname, ?_, hboth.congr (by simp [Token.names]) (by simp [Token.values]) ?_⟩
    · exact Token.endsWord_toList_append (by decide) (by decide) _
    · exact List.forall_mem_cons.mpr ⟨by simp [Token.IsPlain], hboth.plain⟩

theorem uses_path {k : String} {rest : Path} (h : Path.Readable (.key k :: rest))
    (p : Placeholders) : ∃ ts, Token.Reads (writePath (.key k :: rest) p).1 ts ∧
      Uses p (writePath (.key k :: rest) p).2 ts := by
  obtain ⟨ts, hreads, hend, huses⟩ := uses_steps rest h.tail (name k p).2
  have htext : (writePath (.key k :: rest) p).1 =
      (name k p).1 ++ (joint rest ++ (writePath rest (name k p).2).1) := by
    show (name k p).1 ++ joint rest ++ (writePath rest (name k p).2).1 = _
    simp [String.append_assoc]
  rw [htext]
  exact ⟨_, (reads_name k p).append hreads hend, (uses_name k p).append huses⟩

/-- The texts of the sections have the placeholders that have been handed out. -/
def Sections.Uses (s : Sections) (p : Placeholders) : Prop :=
  ∃ sets removes adds, List.Forall₂ Token.Reads s.sets sets ∧
    List.Forall₂ Token.Reads s.removes removes ∧ List.Forall₂ Token.Reads s.adds adds ∧
    Placeholders.Uses {} p (sets ++ removes ++ adds).flatten

/-- What is written behind the sections may go to any of them. -/
theorem uses_flatten {sets removes adds sets' removes' adds' : List (List Token)}
    (h : Placeholders.Uses {} p (sets ++ removes ++ adds).flatten) (h' : Placeholders.Uses p q ts)
    (hmem : ∀ t, t ∈ (sets' ++ removes' ++ adds').flatten ↔
      t ∈ (sets ++ removes ++ adds).flatten ∨ t ∈ ts) :
    Placeholders.Uses {} q (sets' ++ removes' ++ adds').flatten := by
  refine (h.append h').congr (fun token => ?_) (fun token => ?_) fun t ht => ?_
  · rw [Token.mem_names, Token.mem_names, hmem, List.mem_append]
  · rw [Token.mem_values, Token.mem_values, hmem, List.mem_append]
  · exact ((hmem t).mp ht).elim (h.plain t) (h'.plain t)

/-- A path and a value with a sign between them. -/
theorem uses_assignment {sign : String} (hsign : Token.Closes sign us) (hend : Token.EndsWord sign.toList)
    (hne : sign.toList ≠ []) (hnames : Token.names us = []) (hvalues : Token.values us = [])
    (hplain : ∀ t ∈ us, t.IsPlain) {k : String} {rest : Path} (h : Path.Readable (.key k :: rest))
    (hp : p.SharesByText) (v : Value) :
    ∃ ts, Token.Reads ((writePath (.key k :: rest) p).1 ++ sign ++
          (writeValue v (writePath (.key k :: rest) p).2).1) ts ∧
        Uses p (writeValue v (writePath (.key k :: rest) p).2).2 ts ∧
        (writeValue v (writePath (.key k :: rest) p).2).2.SharesByText := by
  obtain ⟨ts, hreads, huses⟩ := uses_path h p
  have hshares := (writes_path h p hp).2.1
  obtain ⟨-, hshares', hholds⟩ := writes_sharedValue v _ hshares
  have hvalue := (hholds _ (le_refl _)).reads.1
  refine ⟨_, (hreads.append_closes hsign hend hne).append hvalue, ?_, hshares'⟩
  have hboth := huses.append (uses_sharedValue v hshares)
  refine hboth.congr (by simp [hnames]) (by simp [hvalues]) fun t ht => ?_
  rw [List.mem_append, List.mem_append, or_right_comm] at ht
  exact ht.elim (fun ht => hboth.plain t (List.mem_append.mpr ht)) (hplain t)

theorem uses_write {c : Change} (hc : c.Readable) {s : Sections} (hp : p.SharesByText)
    (hs : s.Uses p) : (write s c p).1.Uses (write s c p).2 ∧ (write s c p).2.SharesByText := by
  obtain ⟨k, rest, hpath, hreadable⟩ := hc
  obtain ⟨sets, removes, adds, hsets, hremoves, hadds, huses⟩ := hs
  rw [hpath] at hreadable
  cases c with
  | set path v =>
    obtain rfl : path = .key k :: rest := hpath
    have hsign : Token.Closes " = " [.comparator .eq] := Token.closes_of_stepAll rfl
    obtain ⟨ts, hreads, huses', hshares⟩ := uses_assignment hsign (by decide) (by decide) rfl rfl
      (by simp [Token.IsPlain]) hreadable hp v
    refine ⟨⟨sets ++ [ts], removes, adds, List.rel_append hsets (.cons hreads .nil), hremoves, hadds,
      uses_flatten huses huses' fun t => ?_⟩, hshares⟩
    simp [or_comm, or_left_comm]
  | remove path =>
    obtain rfl : path = .key k :: rest := hpath
    obtain ⟨ts, hreads, huses'⟩ := uses_path hreadable p
    refine ⟨⟨sets, removes ++ [ts], adds, hsets, List.rel_append hremoves (.cons hreads .nil), hadds,
      uses_flatten huses huses' fun t => ?_⟩, (writes_path hreadable p hp).2.1⟩
    simp [or_comm, or_left_comm]
  | add path n =>
    obtain rfl : path = .key k :: rest := hpath
    have hblank : Token.Closes " " [] := Token.closes_of_stepAll rfl
    obtain ⟨ts, hreads, huses', hshares⟩ := uses_assignment hblank (by decide) (by decide) rfl rfl
      (by simp) hreadable hp (.num n)
    refine ⟨⟨sets, removes, adds ++ [ts], hsets, hremoves, List.rel_append hadds (.cons hreads .nil),
      uses_flatten huses huses' fun t => ?_⟩, hshares⟩
    simp [or_comm, or_left_comm]

theorem uses_writes : ∀ {changes : List Change}, (∀ c ∈ changes, c.Readable) →
    ∀ {s : Sections} {p : Placeholders}, p.SharesByText → s.Uses p →
      (changes.foldlM write s p).1.Uses (changes.foldlM write s p).2
  | [], _, s, p, _, hs => hs
  | c :: changes, h, s, p, hp, hs => by
    rw [List.foldlM_cons]
    obtain ⟨hs', hp'⟩ := uses_write (h c List.mem_cons_self) hp hs
    exact uses_writes (fun d hd => h d (List.mem_cons_of_mem c hd)) hp' hs'

/-! ## Sections -/

/-- The tokens of a section. -/
def sectionTokens (keyword : String) (tss : List (List Token)) : List (List Token) :=
  if tss.isEmpty then [] else [.word keyword :: [Token.comma].intercalate tss]

theorem reads_sectionText (keyword : String) (hkeyword : Token.Closes (keyword ++ " ") [.word keyword])
    {texts : List String} {tss : List (List Token)} (h : List.Forall₂ Token.Reads texts tss) :
    List.Forall₂ Token.Reads (sectionText keyword texts) (sectionTokens keyword tss) := by
  have hcomma : Token.Closes ", " [.comma] := Token.closes_of_stepAll rfl
  have hlist := Token.Reads.intercalate hcomma (by decide) (by decide) h
  cases h with
  | nil => exact .nil
  | cons hfirst hrest => exact .cons (hkeyword.append hlist) .nil

theorem names_sectionTokens (keyword : String) (tss : List (List Token)) :
    Token.names (sectionTokens keyword tss).flatten = Token.names tss.flatten := by
  unfold sectionTokens
  split
  · rename_i hnil
    rw [List.isEmpty_iff.mp hnil]
  · rw [List.flatten_singleton]
    exact Token.names_intercalate rfl tss

theorem values_sectionTokens (keyword : String) (tss : List (List Token)) :
    Token.values (sectionTokens keyword tss).flatten = Token.values tss.flatten := by
  unfold sectionTokens
  split
  · rename_i hnil
    rw [List.isEmpty_iff.mp hnil]
  · rw [List.flatten_singleton]
    exact Token.values_intercalate rfl tss

theorem plain_sectionTokens {keyword : String} (hkeyword : keyword ∈ Token.keywords)
    {tss : List (List Token)} (h : ∀ t ∈ tss.flatten, t.IsPlain) :
    ∀ t ∈ (sectionTokens keyword tss).flatten, t.IsPlain := by
  intro t ht
  unfold sectionTokens at ht
  split at ht
  · simp at ht
  · rw [List.flatten_singleton, List.mem_cons] at ht
    rcases ht with rfl | ht
    · exact hkeyword
    · rcases Token.mem_of_mem_intercalate ht with ht | ht
      · obtain rfl := List.mem_singleton.mp ht
        trivial
      · exact h t ht

/-- The text of the sections has their placeholders. -/
theorem Sections.Uses.exists_reads {s : Sections} (h : s.Uses p) :
    ∃ ts, Token.Reads s.text ts ∧ Placeholders.Uses {} p ts := by
  obtain ⟨sets, removes, adds, hsets, hremoves, hadds, huses⟩ := h
  have hblank : Token.Closes " " [] := Token.closes_of_stepAll rfl
  have hparts := List.rel_append (List.rel_append
    (reads_sectionText "SET" (Token.closes_of_stepAll rfl) hsets)
    (reads_sectionText "REMOVE" (Token.closes_of_stepAll rfl) hremoves))
    (reads_sectionText "ADD" (Token.closes_of_stepAll rfl) hadds)
  refine ⟨_, Token.Reads.intercalate hblank (by decide) (by decide) hparts, huses.congr ?_ ?_ ?_⟩
  · intro token
    rw [Token.names_intercalate rfl]
    simp [names_sectionTokens]
  · intro token
    rw [Token.values_intercalate rfl]
    simp [values_sectionTokens]
  · have hplain := huses.plain
    simp only [List.flatten_append, List.mem_append, or_imp, forall_and] at hplain
    obtain ⟨⟨hset, hremove⟩, hadd⟩ := hplain
    intro t ht
    rcases Token.mem_of_mem_intercalate ht with ht | ht
    · simp at ht
    · rw [List.flatten_append, List.flatten_append, List.mem_append, List.mem_append] at ht
      rcases ht with (ht | ht) | ht
      · exact plain_sectionTokens (by simp [Token.keywords]) hset t ht
      · exact plain_sectionTokens (by simp [Token.keywords]) hremove t ht
      · exact plain_sectionTokens (by simp [Token.keywords]) hadd t ht

end Change

/-- The tables of a patch of changes that can be written go with its text. -/
theorem Patch.fits_ofChanges {changes : List Change} (h : ∀ c ∈ changes, c.Readable) :
    ∃ ts, Token.scan (ofChanges changes).expression = .ok ts ∧
      (ofChanges changes).attributes.Fits ts := by
  have hempty : Change.Sections.Uses {} {} := ⟨[], [], [], .nil, .nil, .nil, Uses.refl {}⟩
  have hshares : SharesByText {} := fun key token hkey => by simp at hkey
  obtain ⟨ts, hreads, huses⟩ := (Change.uses_writes h hshares hempty).exists_reads
  exact ⟨ts, hreads.scan, huses.fits⟩

/-! ## Lists that can be indexed -/

/-- Every list in the value is as long as an index can say. -/
def Value.Indexable (v : Value) : Prop :=
  ∀ path xs, follow? path v = some (.list xs) → xs.length ≤ Nat.pow 2 64

/-- Every list in the row is as long as an index can say. -/
def Item.Indexable (item : Item) : Prop :=
  Value.Indexable (.map item)

theorem Value.Indexable.field {fs : Fields Value} {k : String} {v : Value}
    (h : Indexable (.map fs)) (hv : Fields.get? fs k = some v) : v.Indexable := by
  intro path xs hpath
  refine h (.key k :: path) xs ?_
  rw [follow?, hv]
  exact hpath

theorem Value.Indexable.element {xs : List Value} {i : Nat} {v : Value}
    (h : Indexable (.list xs)) (hv : xs[i]? = some v) : v.Indexable := by
  intro path ys hpath
  refine h (.index i :: path) ys ?_
  rw [follow?, hv]
  exact hpath

/-- Changes between values whose lists can be indexed can be written: a map is entered at a name and a
list at a position that one of the two has. -/
theorem Change.Arises.readable {c : Change} {path : Path} {prev next : Option Value}
    (h : Arises c path prev next) (hpath : path.Readable) (hprev : ∀ v ∈ prev, v.Indexable)
    (hnext : ∀ v ∈ next, v.Indexable) : c.path.Readable := by
  induction h with
  | set path prev w => exact hpath
  | remove path v => exact hpath
  | add path m n difference => exact hpath
  | field _ ih =>
    refine ih (fun i hi => hpath i (by simpa using hi)) (fun v hv => (hprev _ rfl).field hv)
      fun v hv => (hnext _ rfl).field hv
  | @element c path a b i hlt _ ih =>
    refine ih (fun j hj => ?_) (fun v hv => (hprev _ rfl).element hv)
      fun v hv => (hnext _ rfl).element hv
    rcases List.mem_append.mp hj with hj | hj
    · exact hpath j hj
    · obtain rfl : j = i := by simpa using hj
      exact hlt.trans_le (max_le (hprev _ rfl [] a rfl) (hnext _ rfl [] b rfl))

theorem Change.readable_of_betweenItems {prev next : Item} {changes : List Change}
    (h : betweenItems prev next = .ok changes) (hprev : prev.Indexable) (hnext : next.Indexable) :
    ∀ c ∈ changes, c.Readable := by
  intro c hc
  obtain ⟨k, harises⟩ := arises_of_mem_betweenItems h hc
  obtain ⟨rest, hpath⟩ := harises.path
  exact ⟨k, rest, hpath, harises.readable (fun i hi => by simp at hi)
    (fun v hv => Value.Indexable.field hprev hv) fun v hv => Value.Indexable.field hnext hv⟩

/-- The patch is an update: its text scans to tokens that go with its tables, and it parses. -/
def Patch.SpellsOut (patch : Patch) : Prop :=
  (∃ ts, Token.scan patch.expression = .ok ts ∧ patch.attributes.Fits ts) ∧
    ∃ actions, UpdateAction.parse patch.attributes patch.expression = .ok actions

theorem Patch.spellsOut_of_between {prev next : Item} {patch : Patch}
    (h : between prev next = .ok patch) (hprev : prev.Indexable) (hnext : next.Indexable) :
    patch.SpellsOut := by
  obtain ⟨changes, hchanges, h⟩ := exists_of_bind_eq_ok h
  split at h
  · cases h
  · obtain rfl := Except.ok.inj h
    have hreadable := Change.readable_of_betweenItems hchanges hprev hnext
    exact ⟨fits_ofChanges hreadable, _, parse_ofChanges hreadable⟩

end KeyedQuery
