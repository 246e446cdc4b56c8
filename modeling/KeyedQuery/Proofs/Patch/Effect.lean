import KeyedQuery.Expression.Update
import KeyedQuery.Proofs.Fields
import KeyedQuery.Proofs.Expression.Update
import Mathlib.Data.List.Nodup

/-!
# What changes do

A change works on a place that holds a value or nothing. `Change.effect` is what it leaves there,
`Change.effects` what several changes leave one after another. On a row these are the actions of
an update (`Change.apply_action`, `Change.removeIn_path`). Changes to the fields of a map do not
touch each other (`Change.effects_fields`), and neither do those to the elements of a list if it
grows from the front and shrinks from the back (`Change.effects_upward`,
`Change.effects_downward`).
-/

namespace KeyedQuery

/-! ## Places -/

/-- Put a value under a name, or nothing. -/
def Fields.put (fs : Fields Value) (k : String) : Option Value → Fields Value
  | some v => fs.insert k v
  | none => fs.erase k

/-- Put a value at a position, or nothing. -/
def putElement (xs : List Value) (i : Nat) : Option Value → List Value
  | some v => if i < xs.length then xs.set i v else xs ++ [v]
  | none => xs.eraseIdx i

theorem Fields.get?_put (fs : Fields Value) (k : String) (place : Option Value) (key : String) :
    Fields.get? (fs.put k place) key = if k = key then place else Fields.get? fs key := by
  cases place with
  | some v => exact Fields.get?_insert fs k v key
  | none => exact Fields.get?_erase fs k key

theorem Fields.Ordered.put {fs : Fields Value} (h : fs.Ordered) (k : String)
    (place : Option Value) : (fs.put k place).Ordered := by
  cases place with
  | some v => exact h.insert k v
  | none => exact h.erase k

theorem Fields.Ordered.put_get? {fs : Fields Value} (h : fs.Ordered) (k : String) :
    fs.put k (Fields.get? fs k) = fs :=
  (h.put k _).ext h fun key => by
    rw [Fields.get?_put]
    split
    · rename_i hk
      rw [hk]
    · rfl

theorem Fields.Ordered.put_put {fs : Fields Value} (h : fs.Ordered) (k : String)
    (first second : Option Value) : (fs.put k first).put k second = fs.put k second :=
  ((h.put k first).put k second).ext (h.put k second) fun key => by
    rw [Fields.get?_put, Fields.get?_put, Fields.get?_put]
    split <;> rfl

theorem getElem?_putElement_some {xs : List Value} {i : Nat} (hi : i ≤ xs.length) (v : Value)
    (j : Nat) : (putElement xs i (some v))[j]? = if i = j then some v else xs[j]? := by
  rw [putElement]
  rcases Nat.lt_or_eq_of_le hi with hlt | rfl
  · rw [if_pos hlt, List.getElem?_set, if_pos hlt]
  · rw [if_neg (Nat.lt_irrefl _), List.getElem?_append]
    split
    · rename_i hj
      rw [if_neg (Nat.ne_of_gt hj)]
    · rename_i hj
      split
      · rename_i h
        simp [h]
      · rename_i h
        have hout : xs.length < j := Nat.lt_of_le_of_ne (Nat.not_lt.mp hj) h
        rw [List.getElem?_eq_none (by simp; omega), List.getElem?_eq_none (Nat.le_of_lt hout)]

theorem getElem?_putElement_none {xs : List Value} {i : Nat} (hi : xs.length = i + 1) (j : Nat) :
    (putElement xs i none)[j]? = if i = j then none else xs[j]? := by
  rw [putElement, List.getElem?_eraseIdx]
  split
  · rename_i hj
    rw [if_neg (Nat.ne_of_gt hj)]
  · rename_i hj
    rw [List.getElem?_eq_none (by omega)]
    split
    · rfl
    · rw [List.getElem?_eq_none (by omega)]

/-! ## Effects -/

namespace Value

/-- What a change of the place at the end of a path leaves in the place where the path starts. The
places on the way have to be there. -/
def alter (f : Option Value → Option (Option Value)) : Path → Option Value → Option (Option Value)
  | [], place => f place
  | .key k :: rest, some (.map fs) =>
    (alter f rest (Fields.get? fs k)).map fun place => some (.map (Fields.put fs k place))
  | .index i :: rest, some (.list xs) =>
    (alter f rest xs[i]?).map fun place => some (.list (putElement xs i place))
  | _, _ => none

theorem alter_cons_none (f : Option Value → Option (Option Value)) (segment : Segment)
    (rest : Path) : alter f (segment :: rest) none = none := by
  cases segment <;> rfl

theorem alter_cons_ne_none {f : Option Value → Option (Option Value)} {segment : Segment}
    {rest : Path} {place : Option Value} : alter f (segment :: rest) place ≠ some none := by
  intro h
  cases segment with
  | key k =>
    cases place with
    | none => cases h
    | some u => cases u <;> simp [alter] at h
  | index i =>
    cases place with
    | none => cases h
    | some u => cases u <;> simp [alter] at h

theorem alter_cons_eq_some {f : Option Value → Option (Option Value)} {segment : Segment}
    {rest : Path} {place inner : Option Value}
    (h : alter f (segment :: rest) place = some inner) :
    ∃ x y, place = some x ∧ inner = some y := by
  cases place with
  | none =>
    rw [alter_cons_none] at h
    cases h
  | some x =>
    obtain ⟨y, rfl⟩ : ∃ y, inner = some y :=
      Option.ne_none_iff_exists'.mp fun hnone => alter_cons_ne_none (hnone ▸ h)
    exact ⟨x, y, rfl, rfl⟩

/-- A change below a value reads what is at the end of the path and puts or drops it there. -/
theorem alter_eq_some {f : Option Value → Option (Option Value)} :
    ∀ {path : Path} {u w : Value}, path ≠ [] → alter f path (some u) = some (some w) →
      ∃ place, f (follow? path u) = some place ∧
        (∀ v, place = some v → setAt? v path u = some w) ∧ (place = none → removeAt path u = w)
  | [], _, _, hne, _ => absurd rfl hne
  | [.key k], u, w, _, h => by
    cases u with
    | map fs =>
      obtain ⟨place, hplace, hw⟩ := Option.map_eq_some_iff.mp h
      obtain rfl := Option.some.inj hw
      refine ⟨place, ?_, ?_, ?_⟩
      · rw [← hplace, follow?]
        cases Fields.get? fs k <;> rfl
      · rintro v rfl
        rfl
      · rintro rfl
        rfl
    | _ => cases h
  | [.index i], u, w, _, h => by
    cases u with
    | list xs =>
      obtain ⟨place, hplace, hw⟩ := Option.map_eq_some_iff.mp h
      obtain rfl := Option.some.inj hw
      refine ⟨place, ?_, ?_, ?_⟩
      · rw [← hplace, follow?]
        cases xs[i]? <;> rfl
      · rintro v rfl
        rfl
      · rintro rfl
        rfl
    | _ => cases h
  | .key k :: segment :: rest, u, w, _, h => by
    cases u with
    | map fs =>
      obtain ⟨inner, hinner, hw⟩ := Option.map_eq_some_iff.mp h
      obtain rfl := Option.some.inj hw
      obtain ⟨x, y, hx, rfl⟩ := alter_cons_eq_some hinner
      rw [hx] at hinner
      obtain ⟨place, hplace, hset, hremove⟩ := alter_eq_some (by simp) hinner
      refine ⟨place, by rw [← hplace, follow?, hx]; rfl, fun v hv => ?_, fun hv => ?_⟩
      · simp [setAt?, fieldOrMap, hx, hset v hv, Fields.put]
      · simp [removeAt, fieldOrMap, hx, hremove hv, Fields.put]
    | _ => cases h
  | .index i :: segment :: rest, u, w, _, h => by
    cases u with
    | list xs =>
      obtain ⟨inner, hinner, hw⟩ := Option.map_eq_some_iff.mp h
      obtain rfl := Option.some.inj hw
      obtain ⟨x, y, hx, rfl⟩ := alter_cons_eq_some hinner
      rw [hx] at hinner
      obtain ⟨place, hplace, hset, hremove⟩ := alter_eq_some (by simp) hinner
      refine ⟨place, by rw [← hplace, follow?, hx]; rfl, fun v hv => ?_, fun hv => ?_⟩
      · obtain ⟨hi, rfl⟩ := List.getElem?_eq_some_iff.mp hx
        simp [setAt?, hset v hv, putElement, hi]
      · obtain ⟨hi, rfl⟩ := List.getElem?_eq_some_iff.mp hx
        simp [removeAt, hremove hv, putElement, hi]
    | _ => cases h

end Value

namespace Change

/-- The number in a place, as binary64; zero if there is none. -/
def numberIn : Option Value → Binary64
  | some (.num n) => n.toBinary64
  | _ => Binary64.ofInt 0

theorem numberAt_eq (item : Item) (path : Path) :
    UpdateAction.numberAt item path = numberIn (Value.follow? path (.map item)) := by
  rw [UpdateAction.numberAt]
  cases Value.follow? path (.map item) with
  | none => rfl
  | some v => cases v <;> rfl

/-- The sum of what is in a place and a number. -/
def sum? (place : Option Value) (n : Number) : Option Value :=
  ((numberIn place).add? n.toBinary64).map fun x => .num (Number.ofBinary64 x)

/-- What a change does to the place at the end of its path. -/
def atEnd : Change → Option Value → Option (Option Value)
  | .set _ v => fun _ => some (some v)
  | .remove _ => fun _ => some none
  | .add _ n => fun place => (sum? place n).map some

/-- What a change leaves in the place where its path starts. -/
def effect (c : Change) (place : Option Value) : Option (Option Value) :=
  Value.alter c.atEnd c.path place

/-- What changes leave, one after another. -/
def effects (changes : List Change) (place : Option Value) : Option (Option Value) :=
  changes.foldlM (fun place c => c.effect place) place

@[simp]
theorem effects_nil (place : Option Value) : effects [] place = some place :=
  rfl

theorem effects_cons (c : Change) (changes : List Change) (place : Option Value) :
    effects (c :: changes) place = (c.effect place).bind (effects changes) := by
  simp only [effects, List.foldlM_cons]
  rfl

theorem effects_append (xs ys : List Change) (place : Option Value) :
    effects (xs ++ ys) place = (effects xs place).bind (effects ys) := by
  simp only [effects, List.foldlM_append]
  rfl

/-! ## Effects on rows -/

theorem effect_item {c : Change} {item : Item} {place : Option Value} (hpath : c.path ≠ [])
    (h : c.effect (some (.map item)) = some place) : ∃ next : Item, place = some (.map next) := by
  unfold effect at h
  obtain ⟨segment, rest, hcons⟩ := List.exists_cons_of_ne_nil hpath
  rw [hcons] at h
  cases segment with
  | key k =>
    obtain ⟨inner, -, rfl⟩ := Option.map_eq_some_iff.mp h
    exact ⟨_, rfl⟩
  | index i => cases h

/-- An assignment or an addition is carried out as it is meant. -/
theorem apply_action {c : Change} {item next : Item} (hpath : c.path ≠ [])
    (hplace : c.place ≠ .remove) (h : c.effect (some (.map item)) = some (some (.map next))) :
    UpdateAction.apply item c.action = .ok next := by
  obtain ⟨place, hend, hset, -⟩ := Value.alter_eq_some hpath h
  cases c with
  | set path v =>
    rw [atEnd, Option.some.injEq] at hend
    obtain rfl := hend
    have := hset v rfl
    simp only [Change.path] at this
    show UpdateAction.setIn item path v = .ok next
    rw [UpdateAction.setIn, this]
  | remove path => exact absurd rfl hplace
  | add path n =>
    rw [atEnd] at hend
    obtain ⟨v, hsum, rfl⟩ := Option.map_eq_some_iff.mp hend
    rw [sum?, ← numberAt_eq] at hsum
    obtain ⟨x, hx, rfl⟩ := Option.map_eq_some_iff.mp hsum
    have := hset _ rfl
    simp only [Change.path] at this hx
    rw [action]
    unfold UpdateAction.apply
    dsimp only
    rw [hx]
    dsimp only
    rw [UpdateAction.setIn, this]

/-- A removal is carried out as it is meant. -/
theorem removeIn_path {c : Change} {item next : Item} (hpath : c.path ≠ [])
    (hplace : c.place = .remove) (h : c.effect (some (.map item)) = some (some (.map next))) :
    UpdateAction.removeIn item c.path = next := by
  obtain ⟨place, hend, -, hremove⟩ := Value.alter_eq_some hpath h
  cases c with
  | remove path =>
    rw [atEnd, Option.some.injEq] at hend
    have := hremove hend.symm
    simp only [Change.path] at this
    simp [UpdateAction.removeIn, Change.path, this]
  | set path v => cases hplace
  | add path n => cases hplace

/-! ## Effects inside maps and lists -/

/-- The change with its path inside a segment. -/
def under (segment : Segment) : Change → Change
  | .set path v => .set (segment :: path) v
  | .remove path => .remove (segment :: path)
  | .add path n => .add (segment :: path) n

@[simp]
theorem path_under (segment : Segment) (c : Change) : (c.under segment).path = segment :: c.path := by
  cases c <;> rfl

@[simp]
theorem place_under (segment : Segment) (c : Change) : (c.under segment).place = c.place := by
  cases c <;> rfl

theorem atEnd_under (segment : Segment) (c : Change) : (c.under segment).atEnd = c.atEnd := by
  cases c <;> rfl

theorem effect_under_key (c : Change) (k : String) (fs : Fields Value) :
    (c.under (.key k)).effect (some (.map fs)) =
      (c.effect (Fields.get? fs k)).map fun place => some (.map (fs.put k place)) := by
  rw [effect, path_under, atEnd_under]
  rfl

theorem effect_under_index (c : Change) (i : Nat) (xs : List Value) :
    (c.under (.index i)).effect (some (.list xs)) =
      (c.effect xs[i]?).map fun place => some (.list (putElement xs i place)) := by
  rw [effect, path_under, atEnd_under]
  rfl

/-- Changes to a field work on what is under its name. -/
theorem effects_under_key {k : String} : ∀ {changes : List Change} {fs : Fields Value}
    {place : Option Value}, fs.Ordered → effects changes (Fields.get? fs k) = some place →
      effects (changes.map (under (.key k))) (some (.map fs)) = some (some (.map (fs.put k place)))
  | [], fs, place, ho, h => by
    obtain rfl := Option.some.inj h
    rw [ho.put_get?]
    rfl
  | c :: changes, fs, place, ho, h => by
    rw [effects_cons] at h
    obtain ⟨first, hfirst, hrest⟩ := Option.bind_eq_some_iff.mp h
    have hget : Fields.get? (fs.put k first) k = first := by
      rw [Fields.get?_put, if_pos rfl]
    have hall := effects_under_key (ho.put k first) (hget.symm ▸ hrest)
    rw [ho.put_put] at hall
    rw [List.map_cons, effects_cons, effect_under_key, hfirst]
    exact hall

/-- Changes to different fields work side by side. -/
theorem effects_fields (changesOf : String → List Change) (placeOf : String → Option Value) :
    ∀ {names : List String} {fs : Fields Value}, names.Nodup → fs.Ordered →
      (∀ k ∈ names, effects (changesOf k) (Fields.get? fs k) = some (placeOf k)) →
      ∃ gs : Fields Value, gs.Ordered ∧
        effects (names.map fun k => (changesOf k).map (under (.key k))).flatten (some (.map fs)) =
          some (some (.map gs)) ∧
        ∀ key, Fields.get? gs key = if key ∈ names then placeOf key else Fields.get? fs key
  | [], fs, _, ho, _ => ⟨fs, ho, rfl, fun key => by simp⟩
  | k :: names, fs, hn, ho, h => by
    obtain ⟨hk, hn⟩ := List.nodup_cons.mp hn
    have hothers : ∀ l ∈ names, effects (changesOf l) (Fields.get? (fs.put k (placeOf k)) l) =
        some (placeOf l) := by
      intro l hl
      have hne : k ≠ l := fun heq => hk (heq ▸ hl)
      rw [Fields.get?_put, if_neg hne]
      exact h l (List.mem_cons_of_mem k hl)
    obtain ⟨gs, hgs, hrun, hget⟩ := effects_fields changesOf placeOf hn (ho.put k (placeOf k)) hothers
    refine ⟨gs, hgs, ?_, fun key => ?_⟩
    · rw [List.map_cons, List.flatten_cons, effects_append,
        effects_under_key ho (h k List.mem_cons_self)]
      exact hrun
    · rw [hget, Fields.get?_put]
      by_cases hkey : k = key
      · subst hkey
        simp [hk]
      · simp [hkey, Ne.symm hkey]

/-- None of the changes drops the place itself. -/
def KeepPlace (changes : List Change) : Prop :=
  ∀ c ∈ changes, c.place = .remove → c.path ≠ []

theorem effect_ne_none {c : Change} {place : Option Value} (h : c.place = .remove → c.path ≠ []) :
    c.effect place ≠ some none := by
  intro hnone
  by_cases hpath : c.path = []
  · rw [effect, hpath] at hnone
    cases c with
    | set path v => simp [Value.alter, atEnd] at hnone
    | remove path => exact h rfl hpath
    | add path n => simp [Value.alter, atEnd] at hnone
  · obtain ⟨segment, rest, hcons⟩ := List.exists_cons_of_ne_nil hpath
    rw [effect, hcons] at hnone
    exact Value.alter_cons_ne_none hnone

/-- Changes to an element, or to the place behind the last one, work on what is there. -/
theorem effects_under_index {i : Nat} : ∀ {changes : List Change} {xs : List Value} {v : Value},
    i ≤ xs.length → KeepPlace changes → effects changes xs[i]? = some (some v) →
      effects (changes.map (under (.index i))) (some (.list xs)) =
        some (some (.list (putElement xs i (some v))))
  | [], xs, v, hi, _, h => by
    have hx := Option.some.inj h
    obtain ⟨hlt, rfl⟩ := List.getElem?_eq_some_iff.mp hx
    simp [putElement, hlt]
  | c :: changes, xs, v, hi, hkeep, h => by
    rw [effects_cons] at h
    obtain ⟨first, hfirst, hrest⟩ := Option.bind_eq_some_iff.mp h
    obtain ⟨w, rfl⟩ : ∃ w, first = some w := Option.ne_none_iff_exists'.mp fun hnone =>
      effect_ne_none (hkeep c List.mem_cons_self) (hnone ▸ hfirst)
    have hget : (putElement xs i (some w))[i]? = some w := by
      rw [getElem?_putElement_some hi, if_pos rfl]
    have hlt : i < (putElement xs i (some w)).length := (List.getElem?_eq_some_iff.mp hget).1
    have hall := effects_under_index (Nat.le_of_lt hlt)
      (fun d hd => hkeep d (List.mem_cons_of_mem c hd)) (hget.symm ▸ hrest)
    have htwice : putElement (putElement xs i (some w)) i (some v) = putElement xs i (some v) := by
      refine List.ext_getElem? fun j => ?_
      rw [getElem?_putElement_some (Nat.le_of_lt hlt), getElem?_putElement_some hi,
        getElem?_putElement_some hi]
      split <;> rfl
    rw [List.map_cons, effects_cons, effect_under_index, hfirst]
    exact htwice ▸ hall

/-- Changes to the elements from the front on, each of which has a value afterwards. -/
theorem effects_upward (changesOf : Nat → List Change) (placeOf : Nat → Option Value)
    (xs : List Value) : ∀ {n : Nat}, (∀ i < n, KeepPlace (changesOf i)) →
      (∀ i < n, (placeOf i).isSome) →
      (∀ i < n, effects (changesOf i) xs[i]? = some (placeOf i)) →
      ∃ ys : List Value,
        effects ((List.range n).map fun i => (changesOf i).map (under (.index i))).flatten
          (some (.list xs)) = some (some (.list ys)) ∧
        ∀ j, ys[j]? = if j < n then placeOf j else xs[j]?
  | 0, _, _, _ => ⟨xs, rfl, fun j => by simp⟩
  | n + 1, hkeep, hsome, h => by
    obtain ⟨ys, hrun, hget⟩ :=
      effects_upward changesOf placeOf xs (fun i hi => hkeep i (Nat.lt_succ_of_lt hi))
        (fun i hi => hsome i (Nat.lt_succ_of_lt hi)) (fun i hi => h i (Nat.lt_succ_of_lt hi))
    obtain ⟨v, hv⟩ := Option.isSome_iff_exists.mp (hsome n (Nat.lt_succ_self n))
    have hlen : n ≤ ys.length := by
      rcases Nat.eq_zero_or_pos n with rfl | hpos
      · exact Nat.zero_le _
      · obtain ⟨w, hw⟩ := Option.isSome_iff_exists.mp (hsome (n - 1) (by omega))
        have hlast : ys[n - 1]? = some w := by rw [hget, if_pos (by omega), hw]
        have := (List.getElem?_eq_some_iff.mp hlast).1
        omega
    have hn : effects (changesOf n) ys[n]? = some (some v) := by
      rw [hget, if_neg (Nat.lt_irrefl n), h n (Nat.lt_succ_self n), hv]
    refine ⟨putElement ys n (some v), ?_, fun j => ?_⟩
    · rw [List.range_succ, List.map_append, List.flatten_append, effects_append, hrun]
      simpa using effects_under_index hlen (hkeep n (Nat.lt_succ_self n)) hn
    · rw [getElem?_putElement_some hlen, hget]
      by_cases hj : n = j
      · subst hj
        simp [hv]
      · simp only [if_neg hj]
        congr 1
        exact propext ⟨fun h => by omega, fun h => by omega⟩

/-- Changes to the elements from the back on. Those that drop an element come before all that keep
one, so each drops the last. -/
theorem effects_downward (changesOf : Nat → List Change) (placeOf : Nat → Option Value) :
    ∀ (n : Nat) (xs : List Value), n ≤ xs.length →
      (∀ i < n, placeOf i ≠ none → KeepPlace (changesOf i)) →
      (∀ i < n, placeOf i = none → changesOf i = [.remove []] ∧ xs.length = n ∧
        ∀ j, i ≤ j → j < n → placeOf j = none) →
      (∀ i < n, effects (changesOf i) xs[i]? = some (placeOf i)) →
      ∃ ys : List Value,
        effects ((List.range n).reverse.map fun i => (changesOf i).map (under (.index i))).flatten
          (some (.list xs)) = some (some (.list ys)) ∧
        ∀ j, ys[j]? = if j < n then placeOf j else xs[j]?
  | 0, xs, _, _, _, _ => ⟨xs, rfl, fun j => by simp⟩
  | n + 1, xs, hlen, hkeep, hdrop, h => by
    have hn : n < n + 1 := Nat.lt_succ_self n
    have hstep : ∃ zs : List Value, effects ((changesOf n).map (under (.index n))) (some (.list xs)) =
        some (some (.list zs)) ∧ n ≤ zs.length ∧ (placeOf n = none → zs.length = n) ∧
        ∀ j, zs[j]? = if n = j then placeOf n else xs[j]? := by
      cases hv : placeOf n with
      | none =>
        obtain ⟨hchanges, hxs, -⟩ := hdrop n hn hv
        have hzs : (putElement xs n none).length = n := by
          rw [putElement, List.length_eraseIdx_of_lt (by omega), hxs, Nat.add_sub_cancel]
        refine ⟨putElement xs n none, ?_, hzs.ge, fun _ => hzs, getElem?_putElement_none hxs⟩
        rw [hchanges]
        exact (effects_cons _ _ _).trans rfl
      | some v =>
        have hkeep' := hkeep n hn (by simp [hv])
        have hnv := h n hn
        rw [hv] at hnv
        refine ⟨putElement xs n (some v), effects_under_index (by omega) hkeep' hnv, ?_, by simp,
          getElem?_putElement_some (by omega) v⟩
        rw [putElement, if_pos (by omega), List.length_set]
        omega
    obtain ⟨zs, hrun, hzs, hshort, hget⟩ := hstep
    have hothers : ∀ i < n, zs[i]? = xs[i]? := fun i hi => by rw [hget, if_neg (by omega)]
    obtain ⟨ys, hrest, hget'⟩ := effects_downward changesOf placeOf n zs hzs
      (fun i hi => hkeep i (Nat.lt_succ_of_lt hi))
      (fun i hi hnone => by
        obtain ⟨hchanges, -, hafter⟩ := hdrop i (Nat.lt_succ_of_lt hi) hnone
        exact ⟨hchanges, hshort (hafter n (Nat.le_of_lt hi) hn),
          fun j hij hj => hafter j hij (Nat.lt_succ_of_lt hj)⟩)
      (fun i hi => by rw [hothers i hi]; exact h i (Nat.lt_succ_of_lt hi))
    refine ⟨ys, ?_, fun j => ?_⟩
    · rw [List.range_succ, List.reverse_append, List.reverse_singleton, List.singleton_append,
        List.map_cons, List.flatten_cons, effects_append, hrun]
      exact hrest
    · rw [hget', hget]
      by_cases hj : n = j
      · subst hj
        simp
      · simp only [if_neg hj]
        congr 1
        exact propext ⟨fun h => by omega, fun h => by omega⟩

end Change

end KeyedQuery
