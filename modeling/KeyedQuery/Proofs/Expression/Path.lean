import KeyedQuery.Patch
import KeyedQuery.Proofs.Expression.Placeholders

/-!
# Reading paths back

A path is written with a placeholder for each name and parses to what was written
(`writes_path`), if every list position on it can be written as an index (`Path.Readable`) and what
follows does not go on with the path (`EndsPath`).
-/

namespace KeyedQuery

open Expression Placeholders

/-- The tokens do not go on with a path that ends before them. -/
def EndsPath (tail : List Token) : Prop :=
  ∀ t ∈ tail.head?, t ≠ .dot ∧ ∀ i, t ≠ .index i

/-- Every list position on the path can be written as an index. -/
def Path.Readable (path : Path) : Prop :=
  ∀ i, Segment.index i ∈ path → i < Nat.pow 2 64

theorem Path.Readable.tail {segment : Segment} {rest : Path}
    (h : Path.Readable (segment :: rest)) : Path.Readable rest :=
  fun i hi => h i (List.mem_cons_of_mem _ hi)

theorem endsPath_comparator (op : Comparator) (tail : List Token) :
    EndsPath (.comparator op :: tail) := by
  intro t ht
  obtain rfl := Option.some.inj ht
  simp

theorem endsPath_value (token : String) (tail : List Token) :
    EndsPath (.value token :: tail) := by
  intro t ht
  obtain rfl := Option.some.inj ht
  simp

theorem parseValue_value {r : Placeholders} {token : String} {v : Value} (h : r.Holds token v)
    (tail : List Token) : parseValue r.attributes (.value token :: tail) = .ok (v, tail) := by
  rw [parseValue, List.head?_cons, h.valueOf]
  rfl

/-- The text reads as the steps of a path. -/
def StepsRead (a : Attributes) (s : String) (path : Path) : Prop :=
  ∃ ts, Token.Reads s ts ∧ Token.EndsWord s.toList ∧
    ∀ tail, EndsPath tail → parseSteps a (ts ++ tail) = .ok (path, tail)

/-- The text reads as a path. -/
def PathReads (a : Attributes) (s : String) (path : Path) : Prop :=
  ∃ token ts, Token.Reads s (.name token :: ts) ∧
    ∀ tail, EndsPath tail → parsePath a (.name token :: (ts ++ tail)) = .ok (path, tail)

theorem parseSteps_of_endsPath (a : Attributes) {tail : List Token} (h : EndsPath tail) :
    parseSteps a tail = .ok ([], tail) := by
  cases tail with
  | nil => simp [parseSteps]
  | cons t rest =>
    obtain ⟨hdot, hindex⟩ := h t rfl
    cases t with
    | dot => exact absurd rfl hdot
    | index i => exact absurd rfl (hindex i)
    | _ => simp [parseSteps]

theorem stepsRead_nil (a : Attributes) : StepsRead a "" [] :=
  ⟨[], Token.closes_empty.reads, by decide, fun _ h => parseSteps_of_endsPath a h⟩

theorem StepsRead.index {a : Attributes} {s : String} {rest : Path} {i : Nat}
    (h : StepsRead a s rest) (hi : i < Nat.pow 2 64) :
    StepsRead a ("[" ++ toString i ++ "]" ++ s) (.index i :: rest) := by
  obtain ⟨ts, hreads, -, hparse⟩ := h
  refine ⟨.index i :: ts, (Token.closes_index hi).append hreads, ?_, fun tail htail => ?_⟩
  · rw [String.append_assoc, String.append_assoc]
    exact Token.endsWord_toList_append (by decide) (by decide) _
  · rw [List.cons_append, parseSteps, hparse tail htail]
    rfl

/-- A name and the steps behind it read as a path. -/
theorem StepsRead.key {r : Placeholders} {s token field : String} {rest : Path}
    (h : StepsRead r.attributes s rest) (hname : r.Names token field) :
    PathReads r.attributes (token ++ s) (.key field :: rest) := by
  obtain ⟨ts, hreads, hend, hparse⟩ := h
  refine ⟨token, ts, hname.reads.1.append hreads hend, fun tail htail => ?_⟩
  rw [parsePath, List.head?_cons, hname.nameOf, List.tail_cons]
  show Except.bind (parseSteps r.attributes (ts ++ tail)) _ = _
  rw [hparse tail htail]
  rfl

/-- A point and a path read as steps. -/
theorem PathReads.step {a : Attributes} {s : String} {path : Path} (h : PathReads a s path) :
    StepsRead a ("." ++ s) path := by
  obtain ⟨token, ts, hreads, hparse⟩ := h
  have hdot : Token.Closes "." [.dot] := Token.closes_of_stepAll rfl
  refine ⟨.dot :: .name token :: ts, hdot.append hreads, ?_, fun tail htail => ?_⟩
  · exact Token.endsWord_toList_append (by decide) (by decide) s
  · have hpath := hparse tail htail
    rw [parsePath, List.head?_cons, List.tail_cons] at hpath
    exact hpath

/-- The steps of a path are written as they are read. -/
theorem writes_steps : ∀ path : Path, path.Readable →
    Writes (Change.writePath path) fun r text =>
      StepsRead r.attributes (Change.joint path ++ text) path
  | [], _ => Writes.pure fun r => stepsRead_nil r.attributes
  | .index i :: rest, h => by
    refine (writes_steps rest h.tail).bind fun more => Writes.pure fun r hmore => ?_
    have hsteps := hmore.index (h i List.mem_cons_self)
    simpa [Change.joint, String.append_assoc] using hsteps
  | .key k :: rest, h => by
    refine (writes_name k).bind fun token => ?_
    refine (writes_steps rest h.tail).bind fun more => Writes.pure fun r hmore hname => ?_
    have hsteps := (hmore.key hname).step
    simpa [Change.joint, String.append_assoc] using hsteps

theorem writes_path {k : String} {rest : Path} (h : Path.Readable (.key k :: rest)) :
    Writes (Change.writePath (.key k :: rest)) fun r text =>
      PathReads r.attributes text (.key k :: rest) := by
  refine (writes_name k).bind fun token => ?_
  refine (writes_steps rest h.tail).bind fun more => Writes.pure fun r hmore hname => ?_
  simpa [String.append_assoc] using hmore.key hname

end KeyedQuery
