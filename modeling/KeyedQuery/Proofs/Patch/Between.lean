import KeyedQuery.Proofs.Patch.Effect
import Mathlib.Data.List.Perm.Basic
import Mathlib.Tactic.Choose

/-!
# Finding changes

`Change.between` finds changes that turn one value into another. `Change.Leads` is what makes a list
of changes lead somewhere when its assignments are carried out first, then its additions, and its
removals from the last to the first. Differences of maps and of lists are put together from those of
their parts (`Change.leads_map`, `Change.leads_list`). `Change.Turns` says moreover that an update text
can be written from the changes, and `Change.exists_turns` follows the recursion of `Change.between`
down to the leaves.

The values there are those of `Value.Patchable`: numbers are integers whose sums and differences are
exact, and nesting stops at the depth to which changes are looked for.
-/

namespace KeyedQuery

/-- Integers below this magnitude have exact sums and differences. -/
def Patch.integerBound : Nat := 4000000000000000

/-- A value nested at most some levels whose numbers are integers below the bound. The names of maps
are ordered, and lists are as long as an index can say. -/
inductive Value.Patchable : Nat → Value → Prop
  | null {levels : Nat} : Patchable (levels + 1) .null
  | bool {levels : Nat} (b : Bool) : Patchable (levels + 1) (.bool b)
  | int {levels : Nat} {n : Int} (h : n.natAbs < Patch.integerBound) :
    Patchable (levels + 1) (.num (.int n))
  | str {levels : Nat} (s : String) : Patchable (levels + 1) (.str s)
  | list {levels : Nat} {xs : List Value} (hlength : xs.length ≤ Nat.pow 2 64)
    (h : ∀ x ∈ xs, Patchable levels x) : Patchable (levels + 1) (.list xs)
  | map {levels : Nat} {fs : List (String × Value)} (ho : Fields.Ordered fs)
    (h : ∀ field ∈ fs, Patchable levels field.2) : Patchable (levels + 1) (.map fs)

/-- A row nested at most `Patch.maxDepth` levels whose numbers are integers below the bound. -/
def Item.Patchable (item : Item) : Prop :=
  Value.Patchable (Patch.maxDepth + 1) (.map item)

namespace Change

/-! ## Lists of changes -/

/-- The change with its path behind another. -/
def below (path : Path) : Change → Change
  | .set p v => .set (path ++ p) v
  | .remove p => .remove (path ++ p)
  | .add p n => .add (path ++ p) n

theorem below_under (path : Path) (segment : Segment) (c : Change) :
    (c.under segment).below path = c.below (path ++ [segment]) := by
  cases c <;> simp [under, below]

theorem below_nil : below [] = id :=
  funext fun c => by cases c <;> rfl

variable {ι : Type} {segmentOf : ι → Segment} {changesOf : ι → List Change}

/-- The changes to parts, one part after another. -/
def ofParts (segmentOf : ι → Segment) (changesOf : ι → List Change) (parts : List ι) :
    List Change :=
  (parts.map fun part => (changesOf part).map (under (segmentOf part))).flatten

theorem mem_ofParts {parts : List ι} {c : Change} (h : c ∈ ofParts segmentOf changesOf parts) :
    ∃ part ∈ parts, ∃ d ∈ changesOf part, c = d.under (segmentOf part) := by
  obtain ⟨changes, hchanges, hc⟩ := List.mem_flatten.mp h
  obtain ⟨part, hpart, rfl⟩ := List.mem_map.mp hchanges
  obtain ⟨d, hd, rfl⟩ := List.mem_map.mp hc
  exact ⟨part, hpart, d, hd, rfl⟩

theorem ofParts_eq_nil {parts : List ι} :
    ofParts segmentOf changesOf parts = [] ↔ ∀ part ∈ parts, changesOf part = [] := by
  simp [ofParts]

theorem inSection_ofParts (place : UpdateAction.Section) (parts : List ι) :
    inSection place (ofParts segmentOf changesOf parts) =
      ofParts segmentOf (fun part => inSection place (changesOf part)) parts := by
  simp [inSection, ofParts, List.filter_flatten, Function.comp_def, List.filter_map]

theorem reverse_ofParts (parts : List ι) :
    (ofParts segmentOf changesOf parts).reverse =
      ofParts segmentOf (fun part => (changesOf part).reverse) parts.reverse := by
  simp [ofParts, List.reverse_flatten, Function.comp_def]

theorem map_below_ofParts (path : Path) (parts : List ι) :
    (ofParts segmentOf changesOf parts).map (below path) =
      (parts.map fun part => (changesOf part).map (below (path ++ [segmentOf part]))).flatten := by
  simp [ofParts, List.map_flatten, Function.comp_def, below_under]

/-! ## Order of removals -/

/-- The paths ascend strictly, so none occurs twice. -/
def Ascending (changes : List Change) : Prop :=
  changes.Pairwise fun c d => Path.compare c.path d.path = .lt

theorem compareText_self (s : String) : compareText s s = .eq := by
  simp [compareText]

theorem compare_segment_self (segment : Segment) : segment.compare segment = .eq := by
  cases segment with
  | key k => exact compareText_self k
  | index i => simp [Segment.compare]

/-- A relation of paths holds between the changes to parts if it holds within each part and between
paths into different ones. -/
theorem pairwise_ofParts {R : Path → Path → Prop} {parts : List ι}
    (hcons : ∀ s p q, R p q → R (s :: p) (s :: q))
    (hparts : parts.Pairwise fun i j => ∀ p q, R (segmentOf i :: p) (segmentOf j :: q))
    (h : ∀ part ∈ parts, (changesOf part).Pairwise fun c d => R c.path d.path) :
    (ofParts segmentOf changesOf parts).Pairwise fun c d => R c.path d.path := by
  unfold ofParts
  rw [List.pairwise_flatten]
  constructor
  · intro changes hchanges
    obtain ⟨part, hpart, rfl⟩ := List.mem_map.mp hchanges
    rw [List.pairwise_map]
    refine (h part hpart).imp fun hcd => ?_
    rw [path_under, path_under]
    exact hcons _ _ _ hcd
  · rw [List.pairwise_map]
    refine hparts.imp fun hij c hc d hd => ?_
    obtain ⟨c, -, rfl⟩ := List.mem_map.mp hc
    obtain ⟨d, -, rfl⟩ := List.mem_map.mp hd
    rw [path_under, path_under]
    exact hij _ _

theorem ascending_ofParts {parts : List ι}
    (hparts : parts.Pairwise fun i j => (segmentOf i).compare (segmentOf j) = .lt)
    (h : ∀ part ∈ parts, Ascending (changesOf part)) :
    Ascending (ofParts segmentOf changesOf parts) := by
  refine pairwise_ofParts (R := fun p q => Path.compare p q = .lt) (fun s p q hpq => ?_)
    (hparts.imp fun hij p q => ?_) h
  · rw [Path.compare, compare_segment_self]
    exact hpq
  · rw [Path.compare, hij]
    rfl

/-! ## Turning one place into another -/

/-- Carried out in the order in which an update does, the changes lead from one place to another. -/
structure Leads (changes : List Change) (prev next : Option Value) : Prop where
  runs : ∃ first second, effects (inSection .set changes) prev = some first ∧
    effects (inSection .add changes) first = some second ∧
    effects (inSection .remove changes).reverse second = some next ∧
    (prev ≠ none ∨ next ≠ none → first.isSome ∧ second.isSome)
  ascending : Ascending (inSection .remove changes)
  keeps : next ≠ none → KeepPlace changes
  drops : prev ≠ none → next = none → changes = [.remove []]

/-- The changes turn one place into another, in the order in which an update carries them out. -/
structure Turns (changes : List Change) (prev next : Option Value) : Prop where
  runs : ∃ first second, effects (inSection .set changes) prev = some first ∧
    effects (inSection .add changes) first = some second ∧
    effects (inSection .remove changes).reverse second = some next ∧
    (prev ≠ none ∨ next ≠ none → first.isSome ∧ second.isSome)
  ascending : Ascending (inSection .remove changes)
  empty_iff : changes = [] ↔ prev = next
  keeps : next ≠ none → KeepPlace changes
  drops : prev ≠ none → next = none → changes = [.remove []]
  readable : ∀ c ∈ changes, c.path.Readable

theorem Turns.leads {changes : List Change} {prev next : Option Value} (h : Turns changes prev next) :
    Leads changes prev next :=
  ⟨h.runs, h.ascending, h.keeps, h.drops⟩

theorem Leads.turns {changes : List Change} {prev next : Option Value} (h : Leads changes prev next)
    (hempty : changes = [] ↔ prev = next) (hreadable : ∀ c ∈ changes, c.path.Readable) :
    Turns changes prev next :=
  ⟨h.runs, h.ascending, hempty, h.keeps, h.drops, hreadable⟩

theorem keepPlace_of_place_ne {changes : List Change} (h : ∀ c ∈ changes, c.place ≠ .remove) :
    KeepPlace changes :=
  fun c hc hplace => absurd hplace (h c hc)

theorem keepPlace_inSection {place : UpdateAction.Section} (h : place ≠ .remove)
    (changes : List Change) : KeepPlace (inSection place changes) :=
  keepPlace_of_place_ne fun c hc => by
    have hplace : c.place = place := by simpa using (List.mem_filter.mp hc).2
    rwa [hplace]

theorem keepPlace_ofParts (parts : List ι) : KeepPlace (ofParts segmentOf changesOf parts) := by
  intro c hc _
  obtain ⟨part, -, d, -, rfl⟩ := mem_ofParts hc
  simp

theorem readable_ofParts {parts : List ι} (hparts : ∀ part ∈ parts, Path.Readable [segmentOf part])
    (h : ∀ part ∈ parts, ∀ c ∈ changesOf part, c.path.Readable) :
    ∀ c ∈ ofParts segmentOf changesOf parts, c.path.Readable := by
  intro c hc i hi
  obtain ⟨part, hpart, d, hd, rfl⟩ := mem_ofParts hc
  rw [path_under] at hi
  rcases List.mem_cons.mp hi with hi | hi
  · exact hparts part hpart i (List.mem_singleton.mpr hi)
  · exact h part hpart d hd i hi

theorem readable_nil : Path.Readable [] :=
  fun i hi => by simp at hi

theorem leads_nil (place : Option Value) : Leads [] place place where
  runs := ⟨place, place, rfl, rfl, rfl, fun h => by
    have hsome : place ≠ none := by simpa using h
    simpa [Option.isSome_iff_ne_none] using hsome⟩
  ascending := List.Pairwise.nil
  keeps _ c hc := by simp at hc
  drops hprev hnext := absurd hnext hprev

theorem leads_set (prev : Option Value) (w : Value) : Leads [.set [] w] prev (some w) where
  runs := ⟨some w, some w, rfl, rfl, rfl, by simp⟩
  ascending := List.Pairwise.nil
  keeps _ := keepPlace_of_place_ne (by simp [place])
  drops _ hnext := by cases hnext

theorem leads_remove (v : Value) : Leads [.remove []] (some v) none where
  runs := ⟨some v, some v, rfl, rfl, rfl, by simp⟩
  ascending := List.pairwise_singleton _ _
  keeps hnext := absurd rfl hnext
  drops _ _ := rfl

theorem leads_add {v w : Value} {n : Number} (h : sum? (some v) n = some w) :
    Leads [.add [] n] (some v) (some w) where
  runs := by
    refine ⟨some v, some w, rfl, ?_, rfl, by simp⟩
    show effects [.add [] n] _ = _
    rw [effects_cons, effect, Change.path, Value.alter]
    show ((sum? (some v) n).map some).bind _ = _
    rw [h]
    rfl
  ascending := List.Pairwise.nil
  keeps _ := keepPlace_of_place_ne (by simp [place])
  drops _ hnext := by cases hnext

/-- Nothing turns a value into itself. -/
theorem turns_self (place : Option Value) : Turns [] place place :=
  (leads_nil place).turns (by simp) fun c hc => by simp at hc

theorem turns_set {prev : Option Value} {w : Value} (h : prev ≠ some w) :
    Turns [.set [] w] prev (some w) :=
  (leads_set prev w).turns (by simp [h]) (by simp [Change.path, readable_nil])

theorem turns_remove (v : Value) : Turns [.remove []] (some v) none :=
  (leads_remove v).turns (by simp) (by simp [Change.path, readable_nil])

/-! ## Leaves -/

theorem difference_int {a b : Int} (ha : a.natAbs < Patch.integerBound)
    (hb : b.natAbs < Patch.integerBound) :
    difference (.int a) (.int b) = .ok (.int (b - a)) := by
  have hbound : 2 * Patch.integerBound ≤ twoPow 53 := by decide
  unfold difference
  rw [Number.signed64?_int (by omega), Number.signed64?_int (by omega)]
  simp only [Option.bind_eq_bind, Option.bind_some]
  rw [Number.signed64?_int (by omega)]

theorem sum?_int {a b : Int} (ha : a.natAbs < Patch.integerBound)
    (hb : b.natAbs < Patch.integerBound) :
    sum? (some (.num (.int a))) (.int (b - a)) = some (.num (.int b)) := by
  have hbound : 2 * Patch.integerBound ≤ twoPow 53 := by decide
  have hstored : Patch.integerBound ≤ Binary64.integerBound := by decide
  obtain ⟨x, hx, hn⟩ :=
    Number.ofBinary64_add? (a := a) (b := b - a) (by omega) (by omega) (by omega)
  show ((Binary64.ofInt a).add? (Binary64.ofInt (b - a))).map
    (fun x => Value.num (Number.ofBinary64 x)) = _
  rw [hx, Option.map_some, hn, show a + (b - a) = b by omega]

/-- The difference of two integers turns the first into the second. -/
theorem turns_add {a b : Int} (ha : a.natAbs < Patch.integerBound)
    (hb : b.natAbs < Patch.integerBound) (hne : a ≠ b) :
    Turns [.add [] (.int (b - a))] (some (.num (.int a))) (some (.num (.int b))) :=
  (leads_add (sum?_int ha hb)).turns (by simp [hne]) (by simp [Change.path, readable_nil])

/-- The two values are compared part by part, or by their difference. -/
def descends : Value → Value → Bool
  | .map _, .map _ | .list _, .list _ | .num _, .num _ => true
  | _, _ => false

theorem between_leaf {v w : Value} (h : descends v w = false) (room : Nat) (path : Path) :
    between (room + 1) path (some v) (some w) =
      if v.agrees w then .ok [] else .ok [.set path w] := by
  cases v <;> cases w <;> first | rfl | exact absurd h (by simp [descends])

theorem agrees_iff_eq_of_leaf {v w : Value} (h : descends v w = false) :
    v.agrees w = true ↔ v = w := by
  cases v <;> cases w <;> simp_all [descends, Value.agrees, Value.same]

/-! ## Maps and lists -/

theorem pairwise_eitherNames (a b : Fields Value) :
    (eitherNames a b).Pairwise fun k l => compareText k l = .lt := by
  refine List.Pairwise.imp ?_ (Fields.ordered_ofList (a ++ b))
  intro k l hkl
  simp [compareText, hkl]

theorem mem_eitherNames {a b : Fields Value} {k : String} :
    k ∈ eitherNames a b ↔ Fields.get? a k ≠ none ∨ Fields.get? b k ≠ none := by
  unfold eitherNames
  rw [Fields.mem_names_ofList, Fields.names, List.map_append, List.mem_append]
  simp only [ne_eq, Fields.get?_eq_none_iff, not_not]
  rfl

/-- Changes to the fields, each leading from one field to its counterpart, lead from one map to the
other. -/
theorem leads_map {a b : Fields Value} (ha : a.Ordered) (hb : b.Ordered) {names : List String}
    (hnames : names.Pairwise fun k l => compareText k l = .lt)
    (habsent : ∀ k ∉ names, Fields.get? a k = none ∧ Fields.get? b k = none)
    {changesOf : String → List Change}
    (h : ∀ k ∈ names, Leads (changesOf k) (Fields.get? a k) (Fields.get? b k)) :
    Leads (ofParts .key changesOf names) (some (.map a)) (some (.map b)) := by
  have hnodup : names.Nodup := hnames.imp fun hkl heq => by
    rw [heq, compareText_self] at hkl
    cases hkl
  choose! first second hset hadd hremove _ using fun k hk => (h k hk).runs
  refine ⟨?_, ?_, fun _ => keepPlace_ofParts _, fun _ hnext => absurd hnext (by simp)⟩
  · obtain ⟨fs, hfs, hrun, hget⟩ := effects_fields _ first hnodup ha hset
    obtain ⟨gs, hgs, hrun', hget'⟩ := effects_fields _ second hnodup hfs fun k hk => by
      rw [hget, if_pos hk]
      exact hadd k hk
    obtain ⟨hs, hhs, hrun'', hget''⟩ := effects_fields _ (Fields.get? b)
      (List.nodup_reverse.mpr hnodup) hgs fun k hk => by
        have hk := List.mem_reverse.mp hk
        rw [hget', if_pos hk]
        exact hremove k hk
    have heq : hs = b := hhs.ext hb fun key => by
      rw [hget'', hget', hget]
      by_cases hkey : key ∈ names
      · simp [hkey]
      · simp [hkey, habsent key hkey]
    refine ⟨some (.map fs), some (.map gs), ?_, ?_, ?_, by simp⟩
    · rw [inSection_ofParts]
      exact hrun
    · rw [inSection_ofParts]
      exact hrun'
    · rw [inSection_ofParts, reverse_ofParts]
      exact heq ▸ hrun''
  · rw [inSection_ofParts]
    exact ascending_ofParts hnames fun k hk => (h k hk).ascending

theorem get?_eq_none_of_notMem {a b : Fields Value} {k : String} (hk : k ∉ eitherNames a b) :
    Fields.get? a k = none ∧ Fields.get? b k = none := by
  simpa [mem_eitherNames] using hk

/-- Changes to the fields, each turning one field into its counterpart, turn one map into the
other. -/
theorem turns_map {a b : Fields Value} (ha : a.Ordered) (hb : b.Ordered)
    {changesOf : String → List Change}
    (h : ∀ k ∈ eitherNames a b, Turns (changesOf k) (Fields.get? a k) (Fields.get? b k)) :
    Turns (ofParts .key changesOf (eitherNames a b)) (some (.map a)) (some (.map b)) := by
  refine (leads_map ha hb (pairwise_eitherNames a b) (fun k hk => get?_eq_none_of_notMem hk)
    fun k hk => (h k hk).leads).turns ?_ ?_
  · rw [ofParts_eq_nil, Option.some.injEq, Value.map.injEq]
    constructor
    · intro hnil
      refine ha.ext hb fun key => ?_
      by_cases hkey : key ∈ eitherNames a b
      · exact (h key hkey).empty_iff.mp (hnil key hkey)
      · obtain ⟨hkeya, hkeyb⟩ := get?_eq_none_of_notMem hkey
        rw [hkeya, hkeyb]
    · rintro rfl k hk
      exact (h k hk).empty_iff.mpr rfl
  · exact readable_ofParts (fun k _ i hi => by simp at hi) fun k hk => (h k hk).readable

theorem getElem?_ne_none_or {a b : List Value} {i : Nat} (hi : i < max a.length b.length) :
    a[i]? ≠ none ∨ b[i]? ≠ none := by
  simp only [ne_eq, List.getElem?_eq_none_iff]
  omega

theorem length_eq_of_getElem? {xs : List Value} {n : Nat} (hlt : ∀ i < n, xs[i]? ≠ none)
    (hge : ∀ i, n ≤ i → xs[i]? = none) : xs.length = n := by
  have hle : xs.length ≤ n := List.getElem?_eq_none_iff.mp (hge n (Nat.le_refl n))
  rcases Nat.lt_or_eq_of_le hle with hlt' | heq
  · exact absurd (List.getElem?_eq_none (Nat.le_refl _)) (hlt _ hlt')
  · exact heq

/-- Changes to the elements, each turning one element into its counterpart, are carried out section by
section. -/
theorem runs_list {a b : List Value} {n : Nat} {changesOf : Nat → List Change}
    (h : ∀ i < n, Leads (changesOf i) a[i]? b[i]?)
    (hpresent : ∀ i < n, a[i]? ≠ none ∨ b[i]? ≠ none)
    (habsent : ∀ i, n ≤ i → a[i]? = none ∧ b[i]? = none) :
    ∃ xs ys : List Value,
      effects (ofParts .index (fun i => inSection .set (changesOf i)) (List.range n))
        (some (.list a)) = some (some (.list xs)) ∧
      effects (ofParts .index (fun i => inSection .add (changesOf i)) (List.range n))
        (some (.list xs)) = some (some (.list ys)) ∧
      effects (ofParts .index (fun i => (inSection .remove (changesOf i)).reverse)
        (List.range n).reverse) (some (.list ys)) = some (some (.list b)) := by
  choose! first second hset hadd hremove hsome using fun i hi => (h i hi).runs
  obtain ⟨xs, hrun, hget⟩ := effects_upward (fun i => inSection .set (changesOf i)) first a
    (fun i _ => keepPlace_inSection (by simp) (changesOf i))
    (fun i hi => (hsome i hi (hpresent i hi)).1) hset
  obtain ⟨ys, hrun', hget'⟩ := effects_upward (fun i => inSection .add (changesOf i)) second xs
    (fun i _ => keepPlace_inSection (by simp) (changesOf i))
    (fun i hi => (hsome i hi (hpresent i hi)).2) fun i hi => by
      rw [hget, if_pos hi]
      exact hadd i hi
  have hlength : ys.length = n := by
    refine length_eq_of_getElem? (fun i hi => ?_) fun i hi => ?_
    · rw [hget', if_pos hi]
      exact Option.isSome_iff_ne_none.mp (hsome i hi (hpresent i hi)).2
    · rw [hget', hget, if_neg (by omega), if_neg (by omega), (habsent i hi).1]
  -- The elements that are dropped are the last ones, so each is at the end when its turn comes.
  have hdrops : ∀ i < n, b[i]? = none →
      (inSection .remove (changesOf i)).reverse = [.remove []] ∧ ys.length = n ∧
        ∀ j, i ≤ j → j < n → b[j]? = none := by
    intro i hi hnone
    have hremoves := (h i hi).drops ((hpresent i hi).resolve_right (by simp [hnone])) hnone
    refine ⟨by rw [hremoves]; rfl, hlength, fun j hij _ => ?_⟩
    rw [List.getElem?_eq_none_iff] at hnone ⊢
    omega
  obtain ⟨zs, hrun'', hget''⟩ := effects_downward
    (fun i => (inSection .remove (changesOf i)).reverse) (fun i => b[i]?) n ys hlength.ge
    (fun i hi hne c hc => (h i hi).keeps hne c (List.mem_filter.mp (List.mem_reverse.mp hc)).1)
    hdrops fun i hi => by
      rw [hget', if_pos hi]
      exact hremove i hi
  have heq : zs = b := List.ext_getElem? fun i => by
    rw [hget'', hget', hget]
    by_cases hi : i < n
    · simp [hi]
    · simp [hi, habsent i (Nat.not_lt.mp hi)]
  exact ⟨xs, ys, hrun, hrun', heq ▸ hrun''⟩

/-- Changes to the elements, each leading from one element to its counterpart, lead from one list to
the other. -/
theorem leads_list {a b : List Value} {n : Nat} {changesOf : Nat → List Change}
    (h : ∀ i < n, Leads (changesOf i) a[i]? b[i]?)
    (hpresent : ∀ i < n, a[i]? ≠ none ∨ b[i]? ≠ none)
    (habsent : ∀ i, n ≤ i → a[i]? = none ∧ b[i]? = none) :
    Leads (ofParts .index changesOf (List.range n)) (some (.list a)) (some (.list b)) := by
  refine ⟨?_, ?_, fun _ => keepPlace_ofParts _, fun _ hnext => absurd hnext (by simp)⟩
  · obtain ⟨xs, ys, hset, hadd, hremove⟩ := runs_list h hpresent habsent
    refine ⟨some (.list xs), some (.list ys), ?_, ?_, ?_, by simp⟩
    · rw [inSection_ofParts]
      exact hset
    · rw [inSection_ofParts]
      exact hadd
    · rw [inSection_ofParts, reverse_ofParts]
      exact hremove
  · rw [inSection_ofParts]
    refine ascending_ofParts ?_ fun i hi => (h i (List.mem_range.mp hi)).ascending
    exact List.pairwise_lt_range.imp fun hij => Nat.compare_eq_lt.mpr hij

theorem getElem?_eq_none_of_le {a b : List Value} {i : Nat} (hi : max a.length b.length ≤ i) :
    a[i]? = none ∧ b[i]? = none := by
  simp only [List.getElem?_eq_none_iff]
  omega

/-- Changes to the elements, each turning one element into its counterpart, turn one list into the
other. -/
theorem turns_list {a b : List Value} (ha : a.length ≤ Nat.pow 2 64) (hb : b.length ≤ Nat.pow 2 64)
    {changesOf : Nat → List Change}
    (h : ∀ i < max a.length b.length, Turns (changesOf i) a[i]? b[i]?) :
    Turns (ofParts .index changesOf (List.range (max a.length b.length)))
      (some (.list a)) (some (.list b)) := by
  refine (leads_list (fun i hi => (h i hi).leads) (fun i hi => getElem?_ne_none_or hi)
    fun i hi => getElem?_eq_none_of_le hi).turns ?_ ?_
  · rw [ofParts_eq_nil, Option.some.injEq, Value.list.injEq]
    constructor
    · intro hnil
      refine List.ext_getElem? fun i => ?_
      by_cases hi : i < max a.length b.length
      · exact (h i hi).empty_iff.mp (hnil i (List.mem_range.mpr hi))
      · obtain ⟨hia, hib⟩ := getElem?_eq_none_of_le (Nat.not_lt.mp hi)
        rw [hia, hib]
    · rintro rfl i hi
      exact (h i (List.mem_range.mp hi)).empty_iff.mpr rfl
  · refine readable_ofParts (fun i hi j hj => ?_) fun i hi => (h i (List.mem_range.mp hi)).readable
    have hij : j = i := by simpa using hj
    have hi := List.mem_range.mp hi
    omega

/-! ## The recursion -/

theorem mapM_eq_ok {α β ε : Type} {f : α → Except ε β} {g : α → β} :
    ∀ {xs : List α}, (∀ x ∈ xs, f x = .ok (g x)) → xs.mapM f = .ok (xs.map g)
  | [], _ => rfl
  | x :: xs, h => by
    rw [List.mapM_cons, h x List.mem_cons_self,
      mapM_eq_ok fun y hy => h y (List.mem_cons_of_mem x hy)]
    rfl

theorem descends_cases {v w : Value} (h : descends v w ≠ false) :
    (∃ a b, v = .map a ∧ w = .map b) ∨ (∃ a b, v = .list a ∧ w = .list b) ∨
      ∃ m n, v = .num m ∧ w = .num n := by
  cases v <;> cases w <;> simp_all [descends]

theorem between_map {room : Nat} {a b : Fields Value} {changesOf : String → List Change}
    (h : ∀ k ∈ eitherNames a b, ∀ path, between room path (Fields.get? a k) (Fields.get? b k) =
      .ok ((changesOf k).map (below path))) (path : Path) :
    between (room + 1) path (some (.map a)) (some (.map b)) =
      .ok ((ofParts .key changesOf (eitherNames a b)).map (below path)) := by
  rw [between, mapM_eq_ok fun k hk => h k hk (path ++ [.key k]), map_below_ofParts]
  rfl

theorem between_list {room : Nat} {a b : List Value} {changesOf : Nat → List Change}
    (h : ∀ i < max a.length b.length, ∀ path,
      between room path a[i]? b[i]? = .ok ((changesOf i).map (below path))) (path : Path) :
    between (room + 1) path (some (.list a)) (some (.list b)) =
      .ok ((ofParts .index changesOf (List.range (max a.length b.length))).map (below path)) := by
  rw [between, mapM_eq_ok fun i hi => h i (List.mem_range.mp hi) (path ++ [.index i]),
    map_below_ofParts]
  rfl

theorem between_int {room : Nat} {a b : Int} (ha : a.natAbs < Patch.integerBound)
    (hb : b.natAbs < Patch.integerBound) (hne : a ≠ b) (path : Path) :
    between (room + 1) path (some (.num (.int a))) (some (.num (.int b))) =
      .ok [.add path (.int (b - a))] := by
  have hbound : Patch.integerBound ≤ twoPow 53 := by decide
  have hdiffer : (Number.int a).agrees (.int b) ≠ true := fun h =>
    hne ((Number.int_agrees_int (by omega) (by omega)).mp h)
  rw [between, if_neg hdiffer, difference_int ha hb]
  rfl

/-- Between two values of limited depth there are always changes that turn one into the other. The
induction is on the levels that may still be entered. -/
theorem exists_turns : ∀ {room : Nat} {prev next : Option Value},
    (∀ v, prev = some v → v.Patchable room) → (∀ w, next = some w → w.Patchable room) →
    (prev ≠ none ∨ next ≠ none) →
    ∃ changes, (∀ path, between room path prev next = .ok (changes.map (below path))) ∧
      Turns changes prev next
  | 0, prev, next, hprev, hnext, hsome => by
    rcases hsome with h | h
    · obtain ⟨v, rfl⟩ := Option.ne_none_iff_exists'.mp h
      cases hprev v rfl
    · obtain ⟨w, rfl⟩ := Option.ne_none_iff_exists'.mp h
      cases hnext w rfl
  | room + 1, none, none, _, _, hsome => absurd hsome (by simp)
  | room + 1, none, some w, _, _, _ =>
    ⟨[.set [] w], fun path => by simp [between, below], turns_set (by simp)⟩
  | room + 1, some v, none, _, _, _ =>
    ⟨[.remove []], fun path => by simp [between, below], turns_remove v⟩
  | room + 1, some v, some w, hprev, hnext, _ => by
    by_cases hleaf : descends v w = false
    · by_cases heq : v = w
      · refine ⟨[], fun path => ?_, heq ▸ turns_self (some v)⟩
        rw [between_leaf hleaf, if_pos ((agrees_iff_eq_of_leaf hleaf).mpr heq)]
        rfl
      · refine ⟨[.set [] w], fun path => ?_, turns_set (by simpa using heq)⟩
        rw [between_leaf hleaf, if_neg fun h => heq ((agrees_iff_eq_of_leaf hleaf).mp h)]
        simp [below]
    · rcases descends_cases hleaf with ⟨a, b, rfl, rfl⟩ | ⟨a, b, rfl, rfl⟩ | ⟨m, n, rfl, rfl⟩
      · cases hprev _ rfl with
        | map ha hfields =>
          cases hnext _ rfl with
          | map hb hfields' =>
            choose! changesOf hbetween hturns using fun k (hk : k ∈ eitherNames a b) =>
              exists_turns (fun v hv => hfields _ (Fields.mem_of_get?_eq_some hv))
                (fun w hw => hfields' _ (Fields.mem_of_get?_eq_some hw)) (mem_eitherNames.mp hk)
            exact ⟨_, between_map hbetween, turns_map ha hb hturns⟩
      · cases hprev _ rfl with
        | list ha helements =>
          cases hnext _ rfl with
          | list hb helements' =>
            choose! changesOf hbetween hturns using fun i (hi : i < max a.length b.length) =>
              exists_turns (fun v hv => helements v (List.mem_of_getElem? hv))
                (fun w hw => helements' w (List.mem_of_getElem? hw)) (getElem?_ne_none_or hi)
            exact ⟨_, between_list hbetween, turns_list ha hb hturns⟩
      · cases hprev _ rfl with
        | @int _ a ha =>
          cases hnext _ rfl with
          | @int _ b hb =>
            by_cases heq : a = b
            · subst heq
              refine ⟨[], fun path => ?_, turns_self _⟩
              rw [between, if_pos (Number.agrees_iff.mpr rfl)]
              rfl
            · refine ⟨[.add [] (.int (b - a))], fun path => ?_, turns_add ha hb heq⟩
              rw [between_int ha hb heq]
              simp [below]

end Change

end KeyedQuery
