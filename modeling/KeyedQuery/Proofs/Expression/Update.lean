import KeyedQuery.Expression.Update
import KeyedQuery.Patch
import KeyedQuery.Proofs.Expression.Path

/-!
# Reading updates back

The text that `Patch.ofChanges` writes parses, with the tables that go with it, to the changes it
was written from: the assignments, then the removals, then the additions, each in their order
(`Patch.parse_ofChanges`). The only condition is that every list position on a path can be
written as an index (`Path.Readable`).
-/

namespace KeyedQuery

open Expression Placeholders

/-! ## Actions -/

namespace Change

/-- The section to which a change is written. -/
def place : Change → UpdateAction.Section
  | .set _ _ => .set
  | .remove _ => .remove
  | .add _ _ => .add

/-- The path that is changed. -/
def path : Change → Path
  | .set path _ => path
  | .remove path => path
  | .add path _ => path

/-- The action that carries a change out. -/
def action : Change → UpdateAction
  | .set path v => .set path v
  | .remove path => .remove path
  | .add path n => .add path (.num n)

/-- The changes that are written to one section, in order. -/
def inSection (place : UpdateAction.Section) (changes : List Change) : List Change :=
  changes.filter fun c => c.place = place

/-- The actions of one section. -/
def actionsIn (place : UpdateAction.Section) (changes : List Change) : List UpdateAction :=
  (inSection place changes).map action

/-- The change is to an attribute, on a path that can be written. -/
def Readable (c : Change) : Prop :=
  ∃ k rest, c.path = .key k :: rest ∧ c.path.Readable

end Change

/-- The text reads as an action of a section. -/
def ActionReads (a : Attributes) (place : UpdateAction.Section) (s : String)
    (action : UpdateAction) : Prop :=
  ∃ token ts, Token.Reads s (.name token :: ts) ∧ ∀ tail, EndsPath tail →
    ∃ path rest, parsePath a (.name token :: (ts ++ tail)) = .ok (path, rest) ∧
      UpdateAction.parseAction a (some place) path rest = .ok (action, tail)

theorem PathReads.remove {a : Attributes} {s : String} {path : Path} (h : PathReads a s path) :
    ActionReads a .remove s (.remove path) := by
  obtain ⟨token, ts, hreads, hparse⟩ := h
  exact ⟨token, ts, hreads, fun tail htail => ⟨path, tail, hparse tail htail, rfl⟩⟩

/-- A path and a value, with a sign between them that is not part of either, read as the action that the
section makes of them. -/
theorem PathReads.assignment {r : Placeholders} {place : UpdateAction.Section} {s sign token : String}
    {us : List Token} {path : Path} {v : Value} {action : UpdateAction}
    (h : PathReads r.attributes s path) (hv : r.Holds token v) (hsign : Token.Closes sign us)
    (hend : Token.EndsWord sign.toList) (hne : sign.toList ≠ [])
    (hends : ∀ tail, EndsPath (us ++ .value token :: tail))
    (hparse : ∀ tail, UpdateAction.parseAction r.attributes (some place) path
      (us ++ .value token :: tail) = .ok (action, tail)) :
    ActionReads r.attributes place (s ++ sign ++ token) action := by
  obtain ⟨name, ts, hreads, hpath⟩ := h
  refine ⟨name, ts ++ (us ++ [.value token]), ?_,
    fun tail _ => ⟨path, us ++ .value token :: tail, ?_, hparse tail⟩⟩
  · simpa using (hreads.append_closes hsign hend hne).append hv.reads.1
  · simpa using hpath _ (hends tail)

theorem PathReads.set {r : Placeholders} {s token : String} {path : Path} {v : Value}
    (h : PathReads r.attributes s path) (hv : r.Holds token v) :
    ActionReads r.attributes .set (s ++ " = " ++ token) (.set path v) := by
  have hsign : Token.Closes " = " [.comparator .eq] := Token.closes_of_stepAll rfl
  refine h.assignment hv hsign (by decide) (by decide) (fun _ => endsPath_comparator .eq _) fun tail => ?_
  simp [UpdateAction.parseAction, expect, bind, Except.bind, parseValue_value hv]

theorem PathReads.add {r : Placeholders} {s token : String} {path : Path} {v : Value}
    (h : PathReads r.attributes s path) (hv : r.Holds token v) :
    ActionReads r.attributes .add (s ++ " " ++ token) (.add path v) := by
  have hsign : Token.Closes " " [] := Token.closes_of_stepAll rfl
  refine h.assignment hv hsign (by decide) (by decide) (endsPath_value token) fun tail => ?_
  simp [UpdateAction.parseAction, bind, Except.bind, parseValue_value hv]

/-! ## Sections -/

namespace Change

theorem actionsIn_append (place : UpdateAction.Section) (xs ys : List Change) :
    actionsIn place (xs ++ ys) = actionsIn place xs ++ actionsIn place ys := by
  simp [actionsIn, inSection]

/-- The texts of the sections read as the actions of some changes. -/
structure Sections.Read (a : Attributes) (s : Sections) (changes : List Change) : Prop where
  sets : List.Forall₂ (ActionReads a .set) s.sets (actionsIn .set changes)
  removes : List.Forall₂ (ActionReads a .remove) s.removes (actionsIn .remove changes)
  adds : List.Forall₂ (ActionReads a .add) s.adds (actionsIn .add changes)

theorem writes_change {c : Change} (hc : c.Readable) (s : Sections) (written : List Change) :
    Writes (write s c) fun r s' =>
      s.Read r.attributes written → s'.Read r.attributes (written ++ [c]) := by
  obtain ⟨k, rest, hpath, hreadable⟩ := hc
  cases c with
  | set path v =>
    obtain rfl : path = .key k :: rest := hpath
    refine (writes_path hreadable).bind fun text => ?_
    refine (writes_sharedValue v).bind fun token => Writes.pure fun r hv htext hs => ?_
    refine ⟨?_, ?_, ?_⟩ <;> rw [actionsIn_append]
    · exact List.rel_append hs.sets (.cons (htext.set hv) .nil)
    · simpa [actionsIn, inSection, place] using hs.removes
    · simpa [actionsIn, inSection, place] using hs.adds
  | remove path =>
    obtain rfl : path = .key k :: rest := hpath
    refine (writes_path hreadable).bind fun text => Writes.pure fun r htext hs => ?_
    refine ⟨?_, ?_, ?_⟩ <;> rw [actionsIn_append]
    · simpa [actionsIn, inSection, place] using hs.sets
    · exact List.rel_append hs.removes (.cons htext.remove .nil)
    · simpa [actionsIn, inSection, place] using hs.adds
  | add path n =>
    obtain rfl : path = .key k :: rest := hpath
    refine (writes_path hreadable).bind fun text => ?_
    refine (writes_sharedValue (.num n)).bind fun token => Writes.pure fun r hv htext hs => ?_
    refine ⟨?_, ?_, ?_⟩ <;> rw [actionsIn_append]
    · simpa [actionsIn, inSection, place] using hs.sets
    · simpa [actionsIn, inSection, place] using hs.removes
    · exact List.rel_append hs.adds (.cons (htext.add hv) .nil)

/-- The changes are written to their sections in order. -/
theorem writes_changes : ∀ {changes : List Change}, (∀ c ∈ changes, c.Readable) →
    ∀ (s : Sections) (written : List Change), Writes (changes.foldlM write s) fun r s' =>
      s.Read r.attributes written → s'.Read r.attributes (written ++ changes)
  | [], _, s, written => Writes.pure fun r hs => by simpa using hs
  | c :: changes, h, s, written => by
    rw [List.foldlM_cons]
    refine (writes_change (h c List.mem_cons_self) s written).bind fun s' => ?_
    have hrest := writes_changes (fun d hd => h d (List.mem_cons_of_mem c hd)) s' (written ++ [c])
    refine hrest.imp fun r s'' hread hc hs => ?_
    simpa using hread (hc hs)

end Change

/-! ## Parsing -/

/-- The tokens parse as the actions of an update, given a call for each token. -/
def ParsesTo (a : Attributes) (place : Option UpdateAction.Section) (tokens : List Token)
    (actions : List UpdateAction) : Prop :=
  ∀ bound, tokens.length ≤ bound → UpdateAction.parseActions a bound place tokens = .ok actions

/-- The tokens do not go on with a list of actions. -/
def EndsActions (tail : List Token) : Prop :=
  EndsPath tail ∧ tail.head? ≠ some .comma

theorem parsesTo_nil (a : Attributes) (place : Option UpdateAction.Section) :
    ParsesTo a place [] [] :=
  fun bound _ => by simp [UpdateAction.parseActions]

theorem ParsesTo.word {a : Attributes} {part : UpdateAction.Section} {w : String}
    {tokens : List Token} {actions : List UpdateAction} (h : ParsesTo a (some part) tokens actions)
    (hw : UpdateAction.Section.ofWord? w = some part) (place : Option UpdateAction.Section) :
    ParsesTo a place (.word w :: tokens) actions := by
  intro bound hbound
  cases bound with
  | zero => simp at hbound
  | succ bound =>
    have htokens : tokens.length ≤ bound := by simpa using hbound
    simpa [UpdateAction.parseActions, UpdateAction.sectionAt?, hw] using h bound htokens

/-- An action parses in front of others, with or without a comma between. -/
theorem ParsesTo.action {a : Attributes} {part : UpdateAction.Section} {token : String}
    {ts tail behind : List Token} {path : Path} {rest : List Token} {action : UpdateAction}
    {actions : List UpdateAction}
    (hpath : parsePath a (.name token :: (ts ++ tail)) = .ok (path, rest))
    (haction : UpdateAction.parseAction a (some part) path rest = .ok (action, tail))
    (hbehind : behind = if tail.head? = some .comma then tail.tail else tail)
    (h : ParsesTo a (some part) behind actions) :
    ParsesTo a (some part) (.name token :: (ts ++ tail)) (action :: actions) := by
  intro bound hbound
  cases bound with
  | zero => simp at hbound
  | succ bound =>
    have hshort : behind.length ≤ bound := by
      have hle : behind.length ≤ tail.length := by
        rw [hbehind]
        split <;> simp
      simp at hbound
      omega
    have hmore := h bound hshort
    rw [hbehind] at hmore
    rw [UpdateAction.parseActions]
    · simp only [UpdateAction.sectionAt?, hpath, bind, Except.bind, haction, hmore]
    · simp

/-- Several actions of a section parse in front of whatever ends them. -/
theorem parsesTo_list {a : Attributes} {part : UpdateAction.Section} :
    ∀ {texts : List String} {actions : List UpdateAction},
      List.Forall₂ (ActionReads a part) texts actions → texts ≠ [] →
      ∃ ts, Token.Reads (", ".intercalate texts) ts ∧ ∀ tail more, EndsActions tail →
        ParsesTo a (some part) tail more → ParsesTo a (some part) (ts ++ tail) (actions ++ more)
  | [], _, .nil, hne => absurd rfl hne
  | [s], [action], .cons h .nil, _ => by
    obtain ⟨token, ts, hreads, hparse⟩ := h
    refine ⟨.name token :: ts, by rwa [String.intercalate_singleton], fun tail more htail hmore => ?_⟩
    obtain ⟨path, rest, hpath, haction⟩ := hparse tail htail.1
    exact .action hpath haction (by rw [if_neg htail.2]) hmore
  | s :: s' :: texts, action :: action' :: actions, .cons h hall, _ => by
    obtain ⟨token, ts, hreads, hparse⟩ := h
    obtain ⟨us, hreads', hparse'⟩ := parsesTo_list hall (by simp)
    have hcomma : Token.Closes ", " [.comma] := Token.closes_of_stepAll rfl
    refine ⟨.name token :: ts ++ [.comma] ++ us, ?_, fun tail more htail hmore => ?_⟩
    · rw [String.intercalate_cons_cons]
      exact (hreads.append_closes hcomma (by decide) (by decide)).append hreads'
    · have hends : EndsPath (.comma :: (us ++ tail)) := by
        intro t ht
        obtain rfl := Option.some.inj ht
        simp
      obtain ⟨path, rest, hpath, haction⟩ := hparse _ hends
      have hall := ParsesTo.action hpath haction rfl (hparse' tail more htail hmore)
      simpa using hall

/-- The parts of an update, with blanks between them, read as its actions. -/
def PartsRead (a : Attributes) (parts : List String) (actions : List UpdateAction) : Prop :=
  ∃ ts, Token.Reads (" ".intercalate parts) ts ∧ EndsActions ts ∧
    ∀ place, ParsesTo a place ts actions

theorem partsRead_nil (a : Attributes) : PartsRead a [] [] := by
  refine ⟨[], Token.closes_empty.reads, ?_, parsesTo_nil a⟩
  simp [EndsActions, EndsPath]

/-- A section in front of others. -/
theorem PartsRead.section {a : Attributes} {part : UpdateAction.Section}
    {parts texts : List String} {actions more : List UpdateAction} (h : PartsRead a parts more)
    (keyword : String)
    (hkeyword : Token.Closes (keyword ++ " ") [.word keyword])
    (hword : UpdateAction.Section.ofWord? keyword = some part)
    (hall : List.Forall₂ (ActionReads a part) texts actions) :
    PartsRead a (Change.sectionText keyword texts ++ parts) (actions ++ more) := by
  cases hall with
  | nil => exact h
  | cons hfirst hrest =>
    obtain ⟨us, hreads', hends, hparse'⟩ := h
    obtain ⟨ts, hreads, hparse⟩ := parsesTo_list (.cons hfirst hrest) (by simp)
    have hblank : Token.Closes " " [] := Token.closes_of_stepAll rfl
    refine ⟨.word keyword :: (ts ++ us), ?_, by simp [EndsActions, EndsPath], fun place => ?_⟩
    · have hsection := hkeyword.append hreads
      cases parts with
      | nil =>
        rw [String.intercalate_nil] at hreads'
        have hempty : us = [] :=
          Except.ok.inj (hreads'.scan.symm.trans Token.closes_empty.reads.scan)
        simpa [Change.sectionText, hempty] using hsection
      | cons next parts =>
        have hboth := (hsection.append_closes hblank (by decide) (by decide)).append hreads'
        simpa [Change.sectionText, String.intercalate_cons_cons] using hboth
    · exact (hparse us more hends (hparse' _)).word hword place

/-- The sections of an update parse to their actions, section after section. -/
theorem parse_sections {a : Attributes} {s : Change.Sections} {changes : List Change}
    (h : s.Read a changes) :
    UpdateAction.parse a s.text =
      .ok (Change.actionsIn .set changes ++ Change.actionsIn .remove changes ++
        Change.actionsIn .add changes) := by
  have hadd := (partsRead_nil a).section "ADD" (Token.closes_of_stepAll rfl)
    (by decide +kernel) h.adds
  have hremove := hadd.section "REMOVE" (Token.closes_of_stepAll rfl)
    (by decide +kernel) h.removes
  have hset := hremove.section "SET" (Token.closes_of_stepAll rfl)
    (by decide +kernel) h.sets
  obtain ⟨ts, hreads, -, hparse⟩ := hset
  have htext : s.text = " ".intercalate (Change.sectionText "SET" s.sets ++
      (Change.sectionText "REMOVE" s.removes ++ (Change.sectionText "ADD" s.adds ++ []))) := by
    simp [Change.Sections.text]
  rw [UpdateAction.parse, htext, hreads.scan]
  refine (hparse none (ts.length + 1) (by omega)).trans ?_
  simp

/-- The patch of some changes parses to them, section after section. -/
theorem Patch.parse_ofChanges {changes : List Change} (h : ∀ c ∈ changes, c.Readable) :
    UpdateAction.parse (Patch.ofChanges changes).attributes (Patch.ofChanges changes).expression =
      .ok (Change.actionsIn .set changes ++ Change.actionsIn .remove changes ++
        Change.actionsIn .add changes) := by
  have hwrites := (Change.writes_changes h {} []).run
  exact parse_sections (hwrites ⟨.nil, .nil, .nil⟩)

end KeyedQuery
