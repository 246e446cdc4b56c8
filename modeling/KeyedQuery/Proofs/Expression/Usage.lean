import KeyedQuery.Proofs.Expression.Condition

/-!
# Which placeholders a text uses

Texts and tables are written together, and they have to agree: a table has the placeholders that stand
in its texts and no others (`Attributes.Fits`). `Placeholders.Sends` follows a writer of conditions. It
says which attributes and which values got tokens, and that the placeholders of the text are these, in its
order. So a finished text makes certain tests and no others (`Attributes.Spells`).
-/

namespace KeyedQuery

open Placeholders

/-! ## Tokens of a text -/

namespace Token

variable {ts us : List Token} {t : Token} {token : String}

/-- The name placeholders among some tokens. -/
def names (ts : List Token) : List String :=
  ts.filterMap fun
    | .name token => some token
    | _ => none

/-- The value placeholders among some tokens. -/
def values (ts : List Token) : List String :=
  ts.filterMap fun
    | .value token => some token
    | _ => none

/-- The words that mean something in an expression. -/
def keywords : List String :=
  ["AND", "NOT", "IN", "begins_with", "contains", "SET", "REMOVE", "ADD"]

/-- The token is no word but a keyword: a placeholder, a keyword, a comparison, punctuation or a list
index. -/
def IsPlain : Token → Prop
  | .word w => w ∈ keywords
  | _ => True

@[simp]
theorem names_append (ts us : List Token) : names (ts ++ us) = names ts ++ names us := by
  simp [names]

@[simp]
theorem values_append (ts us : List Token) : values (ts ++ us) = values ts ++ values us := by
  simp [values]

theorem mem_names : token ∈ names ts ↔ .name token ∈ ts := by
  rw [names, List.mem_filterMap]
  constructor
  · rintro ⟨t, ht, hname⟩
    cases t <;> simp_all
  · exact fun h => ⟨_, h, rfl⟩

theorem mem_values : token ∈ values ts ↔ .value token ∈ ts := by
  rw [values, List.mem_filterMap]
  constructor
  · rintro ⟨t, ht, hvalue⟩
    cases t <;> simp_all
  · exact fun h => ⟨_, h, rfl⟩

theorem names_intercalate (hus : names us = []) : ∀ tss : List (List Token),
    names (us.intercalate tss) = names tss.flatten
  | [] => rfl
  | [ts] => by simp
  | ts :: ts' :: tss => by
    rw [List.intercalate_cons_cons, List.flatten_cons]
    simp [hus, names_intercalate hus (ts' :: tss)]

theorem values_intercalate (hus : values us = []) : ∀ tss : List (List Token),
    values (us.intercalate tss) = values tss.flatten
  | [] => rfl
  | [ts] => by simp
  | ts :: ts' :: tss => by
    rw [List.intercalate_cons_cons, List.flatten_cons]
    simp [hus, values_intercalate hus (ts' :: tss)]

theorem mem_of_mem_intercalate {tss : List (List Token)} (h : t ∈ us.intercalate tss) :
    t ∈ us ∨ t ∈ tss.flatten := by
  induction tss with
  | nil => simp at h
  | cons ts tss ih =>
    cases tss with
    | nil => simpa using Or.inr h
    | cons ts' tss =>
      rw [List.intercalate_cons_cons] at h
      simp only [List.mem_append, List.flatten_cons] at h ih ⊢
      tauto

/-- Pieces with a separator between them read as their tokens with those of the separator between. -/
theorem Reads.intercalate {sep : String} (hsep : Closes sep us) (hend : EndsWord sep.toList)
    (hne : sep.toList ≠ []) : ∀ {texts : List String} {tss : List (List Token)},
      List.Forall₂ Reads texts tss → Reads (sep.intercalate texts) (us.intercalate tss)
  | [], [], .nil => closes_empty.reads
  | [s], [ts], .cons h .nil => by simpa using h
  | s :: s' :: texts, ts :: ts' :: tss, .cons h hrest => by
    rw [String.intercalate_cons_cons, List.intercalate_cons_cons]
    exact (h.append_closes hsep hend hne).append (Reads.intercalate hsep hend hne hrest)

end Token

/-- The tables go with the tokens. There is no bare word but keywords; the placeholders are numbered, and
the tables have those that occur and no others; no placeholder is defined twice, and no attribute has two
of them. -/
structure Attributes.Fits (a : Attributes) (ts : List Token) : Prop where
  plain : ∀ t ∈ ts, t.IsPlain
  names : ∀ token, .name token ∈ ts ↔ token ∈ Fields.names a.names
  values : ∀ token, .value token ∈ ts ↔ token ∈ Fields.names a.values
  nameTokens : ∀ token ∈ Fields.names a.names, ∃ i, token = nameToken i
  valueTokens : ∀ token ∈ Fields.names a.values, ∃ i, token = valueToken i
  distinct : a.names.Pairwise fun x y => x.1 ≠ y.1 ∧ x.2 ≠ y.2
  nodup : (Fields.names a.values).Nodup

/-- A test that an expression makes: of an attribute, against some values. -/
structure Test where
  /-- The attribute. -/
  field : String
  /-- The values. -/
  operands : List Value

/-- The texts are conditions that make some tests: they scan to tokens that go with the tables, and they
parse. Their name placeholders stand for the attributes tested, one after another, and their value
placeholders for the values, each value with a placeholder of its own. -/
structure Attributes.Spells (a : Attributes) (texts : List String) (tests : List Test) : Prop where
  tokens : ∃ tss, List.Forall₂ (fun text ts => Token.scan text = .ok ts) texts tss ∧
    a.Fits tss.flatten ∧
    (Token.names tss.flatten).map (Fields.get? a.names) = tests.map (fun test => some test.field) ∧
    (Token.values tss.flatten).map (Fields.get? a.values) =
      (tests.flatMap Test.operands).map some ∧
    (Token.values tss.flatten).Nodup
  parses : ∀ text ∈ texts, ∃ predicate, Predicate.parse a text = .ok predicate

namespace Placeholders

variable {p q r : Placeholders} {a : Attributes} {ts us : List Token}
  {fields fields' : List String} {vs ws : List Value}

/-! ## Tables -/

section Tables

variable {α : Type} {token : Nat → String} {xs : List α}

theorem mem_names_table {t : String} :
    t ∈ Fields.names (Fields.ofList (xs.mapIdx fun i x => (token i, x))) ↔
      ∃ i, i < xs.length ∧ t = token i := by
  rw [Fields.mem_names_ofList, Fields.names, List.mem_map]
  constructor
  · rintro ⟨entry, hentry, rfl⟩
    obtain ⟨i, hi, rfl⟩ := List.mem_mapIdx.mp hentry
    exact ⟨i, hi, rfl⟩
  · rintro ⟨i, hi, rfl⟩
    exact ⟨_, List.mem_mapIdx.mpr ⟨i, hi, rfl⟩, rfl⟩

theorem getElem?_of_mem_table (ht : Function.Injective token) {entry : String × α}
    (h : entry ∈ Fields.ofList (xs.mapIdx fun i x => (token i, x))) :
    ∃ i, entry.1 = token i ∧ xs[i]? = some entry.2 := by
  obtain ⟨i, -, hi⟩ := mem_names_table.mp (Fields.mem_names_of_mem h)
  refine ⟨i, hi, ?_⟩
  have hget := (Fields.ordered_ofList _).get?_of_mem h
  rwa [hi, get?_mapIdx ht] at hget

end Tables

/-- If the tokens handed out are those that occur, the tables fit. -/
theorem fits_attributes (hplain : ∀ t ∈ ts, t.IsPlain) (hnodup : q.names.Nodup)
    (hnames : ∀ token, .name token ∈ ts ↔ ∃ i, i < q.names.length ∧ token = nameToken i)
    (hvalues : ∀ token, .value token ∈ ts ↔ ∃ i, i < q.values.length ∧ token = valueToken i) :
    q.attributes.Fits ts where
  plain := hplain
  names token := (hnames token).trans mem_names_table.symm
  values token := (hvalues token).trans mem_names_table.symm
  nameTokens token h := (mem_names_table.mp h).imp fun _ hi => hi.2
  valueTokens token h := (mem_names_table.mp h).imp fun _ hi => hi.2
  distinct := by
    have hordered : Fields.Ordered q.attributes.names := Fields.ordered_ofList _
    refine (List.pairwise_map.mp hordered.nodup).imp_of_mem fun {x y} hx hy hne => ⟨hne, ?_⟩
    obtain ⟨i, hi, hxi⟩ := getElem?_of_mem_table nameToken_injective hx
    obtain ⟨j, hj, hyj⟩ := getElem?_of_mem_table nameToken_injective hy
    intro heq
    obtain ⟨hlt, -⟩ := List.getElem?_eq_some_iff.mp hxi
    rw [heq, ← hyj] at hxi
    rw [hi, hj, (List.getElem?_inj hlt hnodup).mp hxi] at hne
    exact hne rfl
  nodup := (Fields.ordered_ofList _).nodup

/-! ## Names in the order of their tokens -/

/-- The names that have a token after one more has been asked for. -/
def addName (names : List String) (field : String) : List String :=
  if field ∈ names then names else names ++ [field]

/-- The token of a name that has one. -/
def tokenOf (p : Placeholders) (field : String) : String :=
  nameToken (p.names.idxOf field)

theorem prefix_foldl_addName (fields : List String) : ∀ names : List String,
    names <+: fields.foldl addName names := by
  induction fields with
  | nil => exact fun names => List.prefix_rfl
  | cons field fields ih =>
    intro names
    refine List.IsPrefix.trans ?_ (ih _)
    unfold addName
    split
    · exact List.prefix_rfl
    · exact List.prefix_append _ _

theorem mem_foldl_addName {field : String} (fields : List String) : ∀ names : List String,
    field ∈ fields.foldl addName names ↔ field ∈ names ∨ field ∈ fields := by
  induction fields with
  | nil => simp
  | cons first fields ih =>
    intro names
    rw [List.foldl_cons, ih, List.mem_cons]
    unfold addName
    split
    · rename_i hmem
      grind
    · simp [or_assoc]

theorem nodup_foldl_addName (fields : List String) : ∀ {names : List String}, names.Nodup →
    (fields.foldl addName names).Nodup := by
  induction fields with
  | nil => exact fun h => h
  | cons field fields ih =>
    intro names h
    refine ih ?_
    unfold addName
    split
    · exact h
    · rename_i hnew
      simpa using List.Nodup.concat hnew h

/-! ## Writing conditions -/

/-- Tokens have been handed out for some attributes and some values, in this order, and they are the
placeholders of the text, in its order. -/
structure Sends (p q : Placeholders) (ts : List Token) (fields : List String) (vs : List Value) :
    Prop where
  names : q.names = fields.foldl addName p.names
  values : q.values = p.values ++ vs
  nameTokens : Token.names ts = fields.map q.tokenOf
  valueTokens : Token.values ts = (List.range' p.values.length vs.length).map valueToken
  plain : ∀ t ∈ ts, t.IsPlain

namespace Sends

theorem refl (p : Placeholders) : Sends p p [] [] [] where
  names := rfl
  values := (List.append_nil _).symm
  nameTokens := rfl
  valueTokens := rfl
  plain := by simp

theorem append (h : Sends p q ts fields vs) (h' : Sends q r us fields' ws) :
    Sends p r (ts ++ us) (fields ++ fields') (vs ++ ws) where
  names := by rw [h'.names, h.names, List.foldl_append]
  values := by rw [h'.values, h.values, List.append_assoc]
  nameTokens := by
    have hsame : ∀ field ∈ fields, q.tokenOf field = r.tokenOf field := by
      intro field hfield
      have hmem : field ∈ q.names := by
        rw [h.names, mem_foldl_addName]
        exact Or.inr hfield
      obtain ⟨more, hmore⟩ := prefix_foldl_addName fields' q.names
      rw [tokenOf, tokenOf, h'.names, ← hmore, List.idxOf_append_of_mem hmem]
    rw [Token.names_append, List.map_append, h.nameTokens, h'.nameTokens,
      List.map_congr_left hsame]
  valueTokens := by
    rw [Token.values_append, h.valueTokens, h'.valueTokens, ← List.map_append, h.values,
      List.length_append, List.length_append, List.range'_append_1]
  plain t ht := (List.mem_append.mp ht).elim (h.plain t) (h'.plain t)

theorem of_plain (p : Placeholders) (us : List Token) (hnames : Token.names us = [])
    (hvalues : Token.values us = []) (hplain : ∀ t ∈ us, t.IsPlain) : Sends p p us [] [] :=
  ⟨rfl, (List.append_nil _).symm, hnames, hvalues, hplain⟩

/-- Words and signs among the placeholders change nothing. -/
theorem congr (h : Sends p q ts fields vs) (hnames : Token.names us = Token.names ts)
    (hvalues : Token.values us = Token.values ts) (hplain : ∀ t ∈ us, t.IsPlain) :
    Sends p q us fields vs :=
  ⟨h.names, h.values, hnames.trans h.nameTokens, hvalues.trans h.valueTokens, hplain⟩

/-- Nor does a separator between pieces. -/
theorem intercalate {tss : List (List Token)} (h : Sends p q tss.flatten fields vs)
    (hnames : Token.names us = []) (hvalues : Token.values us = []) (hplain : ∀ t ∈ us, t.IsPlain) :
    Sends p q (us.intercalate tss) fields vs :=
  h.congr (Token.names_intercalate hnames tss) (Token.values_intercalate hvalues tss)
    fun t ht => (Token.mem_of_mem_intercalate ht).elim (hplain t) (h.plain t)

theorem nodup_names (h : Sends {} q ts fields vs) : q.names.Nodup := by
  rw [h.names]
  exact nodup_foldl_addName fields List.nodup_nil

theorem mem_names (h : Sends {} q ts fields vs) {field : String} :
    field ∈ q.names ↔ field ∈ fields := by
  rw [h.names, mem_foldl_addName]
  simp

/-- The tables of a writer that starts without any go with its text. -/
theorem fits (h : Sends {} q ts fields vs) : q.attributes.Fits ts := by
  refine fits_attributes h.plain h.nodup_names (fun token => ?_) fun token => ?_
  · rw [← Token.mem_names, h.nameTokens, List.mem_map]
    constructor
    · rintro ⟨field, hfield, rfl⟩
      exact ⟨_, List.idxOf_lt_length_of_mem (h.mem_names.mpr hfield), rfl⟩
    · rintro ⟨i, hi, rfl⟩
      refine ⟨q.names[i], h.mem_names.mp (List.getElem_mem hi), ?_⟩
      rw [tokenOf, h.nodup_names.idxOf_getElem]
  · rw [← Token.mem_values, h.valueTokens, h.values, List.mem_map]
    simp [eq_comm]

/-- The placeholders stand for the attributes and the values that were written, in order. -/
theorem spells {texts : List String} {tss : List (List Token)} {tests : List Test}
    (h : Sends {} q tss.flatten (tests.map Test.field) (tests.flatMap Test.operands))
    (hreads : List.Forall₂ Token.Reads texts tss)
    (hparses : ∀ text ∈ texts, ∃ predicate, Predicate.parse q.attributes text = .ok predicate) :
    q.attributes.Spells texts tests := by
  refine ⟨⟨tss, hreads.imp fun _ _ hread => hread.scan, h.fits, ?_, ?_, ?_⟩, hparses⟩
  · rw [h.nameTokens, List.map_map, List.map_map]
    refine List.map_congr_left fun test htest => ?_
    have hmem : test.field ∈ q.names := h.mem_names.mpr (List.mem_map_of_mem htest)
    show Fields.get? q.attributes.names (nameToken (q.names.idxOf test.field)) = some test.field
    exact (get?_mapIdx nameToken_injective q.names _).trans (List.getElem?_idxOf hmem)
  · have hget : ∀ i, Fields.get? q.attributes.values (valueToken i) = q.values[i]? :=
      get?_mapIdx valueToken_injective q.values
    rw [h.valueTokens, List.map_map]
    refine List.ext_getElem (by simp) fun i hi hi' => ?_
    simp [hget, h.values]
  · rw [h.valueTokens]
    exact List.Nodup.map valueToken_injective List.nodup_range'

end Sends

theorem sends_name (field : String) (p : Placeholders) :
    Sends p (name field p).2 [.name (name field p).1] [field] [] := by
  unfold name
  cases hi : p.names.idxOf? field with
  | some i =>
    have hmem : field ∈ p.names := by
      obtain ⟨hlt, hfield, -⟩ := List.idxOf?_eq_some_iff.mp hi
      exact hfield ▸ List.getElem_mem hlt
    have hindex : p.names.idxOf field = i := by
      rw [List.idxOf_eq_getD_idxOf?, hi, Option.getD_some]
    refine ⟨?_, ?_, ?_, rfl, by simp [Token.IsPlain]⟩
    · simp [addName, hmem]
    · simp
    · simp [Token.names, tokenOf, hindex]
  | none =>
    have hnew : field ∉ p.names := List.idxOf?_eq_none_iff.mp hi
    refine ⟨?_, ?_, ?_, rfl, by simp [Token.IsPlain]⟩
    · simp [addName, hnew]
    · simp
    · simp [Token.names, tokenOf, List.idxOf_append, hnew]

theorem reads_name (field : String) (p : Placeholders) :
    Token.Reads (name field p).1 [.name (name field p).1] := by
  unfold name
  split <;> exact Token.reads_nameToken _

theorem sends_value (v : Value) (p : Placeholders) :
    Sends p (value v p).2 [.value (value v p).1] [] [v] where
  names := rfl
  values := rfl
  nameTokens := rfl
  valueTokens := rfl
  plain := by simp [Token.IsPlain]

/-- Every value of a list gets a token of its own. -/
theorem sends_values : ∀ (vs : List Value) (p : Placeholders),
    Sends p (vs.mapM value p).2 ((vs.mapM value p).1.map .value) [] vs
  | [], p => Sends.refl p
  | v :: vs, p => by
    rw [List.mapM_cons]
    exact (sends_value v p).append (sends_values vs (value v p).2)

theorem sends_valueList (vs : List Value) (p : Placeholders) :
    ∃ ts, Token.Reads (valueList vs p).1 ts ∧ Sends p (valueList vs p).2 ts [] vs := by
  have hsends := sends_values vs p
  have htokens : (vs.mapM value p).1 = (List.range' p.values.length vs.length).map valueToken := by
    rw [← hsends.valueTokens, Token.values, List.filterMap_map]
    simp
  have hreads : List.Forall₂ Token.Reads (vs.mapM value p).1
      ((vs.mapM value p).1.map fun token => [.value token]) := by
    rw [List.forall₂_map_right_iff, List.forall₂_same, htokens]
    intro token htoken
    obtain ⟨i, -, rfl⟩ := List.mem_map.mp htoken
    exact Token.reads_valueToken i
  have hcomma : Token.Closes ", " [.comma] := Token.closes_of_stepAll rfl
  refine ⟨_, Token.Reads.intercalate hcomma (by decide) (by decide) hreads,
    Sends.intercalate ?_ rfl rfl ?_⟩
  · rwa [← List.flatMap_def, ← List.map_eq_flatMap]
  · simp [Token.IsPlain]

theorem bind_apply {α β : Type} (m : StateM Placeholders α) (f : α → StateM Placeholders β)
    (p : Placeholders) : (m >>= f) p = f (m p).1 (m p).2 :=
  rfl

/-- The writer puts its text behind what has been written since a state, and the text has the tokens
that were handed out since then, for some attributes and some values. -/
def Renders (m : StateM Placeholders String) (p q : Placeholders) (fields : List String)
    (vs : List Value) : Prop :=
  ∃ ts, Token.Reads (m q).1 ts ∧ Sends p (m q).2 ts fields vs

/-- A single text that parses spells its test out. -/
theorem Renders.spells {m : StateM Placeholders String} {field : String}
    (h : Renders m {} {} [field] vs)
    (hparse : ∃ predicate, Predicate.parse (m {}).2.attributes (m {}).1 = .ok predicate) :
    (m {}).2.attributes.Spells [(m {}).1] [⟨field, vs⟩] := by
  obtain ⟨ts, hread, hsends⟩ := h
  have hall : Sends {} (m {}).2 [ts].flatten ([⟨field, vs⟩].map Test.field)
      ([⟨field, vs⟩].flatMap Test.operands) := by
    simpa using hsends
  exact hall.spells (.cons hread .nil) (by simpa using hparse)

/-- The writer's text is one that it renders. -/
def RendersSome (m : StateM Placeholders (Option String)) (p q : Placeholders)
    (fields : List String) (vs : List Value) : Prop :=
  ∃ text, (m q).1 = some text ∧ ∃ ts, Token.Reads text ts ∧ Sends p (m q).2 ts fields vs

theorem Renders.some {m : StateM Placeholders String} (h : Renders m p q fields vs) :
    RendersSome (Option.some <$> m) p q fields vs :=
  ⟨_, rfl, h⟩

end Placeholders

namespace Operator

variable {p q : Placeholders} {name field : String} {v : Value}

/-- The values that an operator is written with: the elements of a list that it takes as one, otherwise
its value. -/
def operands : Operator → Value → List Value
  | .isIn, .list xs => xs
  | .notIn, .list xs => xs
  | _, v => [v]

theorem renders_comparison {sign : String} {op : Comparator}
    (hreads : Token.Reads name [.name name]) (hname : Sends p q [.name name] [field] [])
    (hsign : Token.Closes (" " ++ sign ++ " ") [.comparator op]) (v : Value) :
    Renders (comparison name sign v) p q [field] [v] := by
  have hend : Token.EndsWord (" " ++ sign ++ " ").toList := by
    rw [String.append_assoc]
    exact Token.endsWord_toList_append (by decide) (by decide) _
  have hboth := (hreads.append_closes hsign hend (by simp)).append
    (Token.reads_valueToken q.values.length)
  have htext : Token.Reads (comparison name sign v q).1
      [.name name, .comparator op, .value (valueToken q.values.length)] := by
    show Token.Reads (name ++ " " ++ sign ++ " " ++ valueToken q.values.length) _
    simpa [String.append_assoc] using hboth
  exact ⟨_, htext, (hname.append (sends_value v q)).congr rfl rfl (by simp [Token.IsPlain])⟩

theorem renders_application {function : String} (hreads : Token.Reads name [.name name])
    (hname : Sends p q [.name name] [field] [])
    (hfunction : Token.Closes (function ++ "(") [.word function, .leftParen])
    (hkeyword : function ∈ Token.keywords) (v : Value) :
    Renders (application function name v) p q [field] [v] := by
  have hcomma : Token.Closes ", " [.comma] := Token.closes_of_stepAll rfl
  have hclose : Token.Closes ")" [.rightParen] := Token.closes_of_stepAll rfl
  have hargument := (hfunction.append hreads).append_closes hcomma (by decide) (by decide)
  have hall := (hargument.append (Token.reads_valueToken q.values.length)).append_closes hclose
    (by decide) (by decide)
  exact ⟨_, hall.reads,
    (hname.append (sends_value v q)).congr rfl rfl (by simp [Token.IsPlain, hkeyword])⟩

theorem renders_membership (hreads : Token.Reads name [.name name])
    (hname : Sends p q [.name name] [field] []) (vs : List Value) :
    Renders (membership name vs) p q [field] vs := by
  obtain ⟨ts, htext, hsends⟩ := sends_valueList vs q
  have hopen : Token.Closes " IN (" [.word "IN", .leftParen] := Token.closes_of_stepAll rfl
  have hclose : Token.Closes ")" [.rightParen] := Token.closes_of_stepAll rfl
  have hall := ((hreads.append_closes hopen (by decide) (by decide)).append htext).append_closes
    hclose (by decide) (by decide)
  have hword := hname.append (Sends.of_plain q [.word "IN", .leftParen] rfl rfl
    (by simp [Token.IsPlain, Token.keywords]))
  have hend := hsends.append (Sends.of_plain _ [.rightParen] rfl rfl
    (by simp [Token.IsPlain]))
  refine ⟨_, hall.reads, ?_⟩
  show Sends p (valueList vs q).2 _ [field] vs
  simpa using hword.append hend

/-- A text in the parentheses of a negation. -/
theorem renders_not {m : StateM Placeholders String} {vs : List Value}
    (h : Renders m p q [field] vs) :
    Renders (do let inner ← m; pure ("NOT (" ++ inner ++ ")")) p q [field] vs := by
  obtain ⟨ts, htext, hsends⟩ := h
  have hopen : Token.Closes "NOT (" [.word "NOT", .leftParen] := Token.closes_of_stepAll rfl
  have hclose : Token.Closes ")" [.rightParen] := Token.closes_of_stepAll rfl
  have hword := Sends.of_plain p [.word "NOT", .leftParen] rfl rfl
    (by simp [Token.IsPlain, Token.keywords])
  have hend := hsends.append (Sends.of_plain _ [.rightParen] rfl rfl
    (by simp [Token.IsPlain]))
  refine ⟨_, ((hopen.append htext).append_closes hclose (by decide) (by decide)).reads, ?_⟩
  show Sends p (m q).2 _ [field] vs
  simpa using hword.append hend

/-- An operator that the store can evaluate is written with its attribute and its operands. -/
theorem renders_fragment? {op : Operator} (hnative : op.isNativeFor v = true)
    (hreads : Token.Reads name [.name name]) (hname : Sends p q [.name name] [field] []) :
    RendersSome (op.fragment? name v) p q [field] (op.operands v) := by
  cases op with
  | eq => exact (renders_comparison hreads hname (Token.closes_of_stepAll rfl) v).some
  | ne => exact (renders_comparison hreads hname (Token.closes_of_stepAll rfl) v).some
  | gt => exact (renders_comparison hreads hname (Token.closes_of_stepAll rfl) v).some
  | gte => exact (renders_comparison hreads hname (Token.closes_of_stepAll rfl) v).some
  | lt => exact (renders_comparison hreads hname (Token.closes_of_stepAll rfl) v).some
  | lte => exact (renders_comparison hreads hname (Token.closes_of_stepAll rfl) v).some
  | isIn =>
    cases v with
    | list xs =>
      have hlist : isMemberList (.list xs) = true := hnative
      rw [fragment?, if_pos hlist]
      exact (renders_membership hreads hname xs).some
    | _ => cases hnative
  | notIn =>
    cases v with
    | list xs =>
      have hlist : isMemberList (.list xs) = true := hnative
      rw [fragment?, if_pos hlist]
      exact (renders_not (renders_membership hreads hname xs)).some
    | _ => cases hnative
  | contains =>
    exact (renders_application hreads hname (Token.closes_of_stepAll rfl)
      (by simp [Token.keywords]) v).some
  | startsWith =>
    exact (renders_application hreads hname (Token.closes_of_stepAll rfl)
      (by simp [Token.keywords]) v).some
  | endsWith => cases hnative

end Operator

end KeyedQuery
