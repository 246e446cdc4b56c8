import KeyedQuery.Proofs.Number.Rounding
import KeyedQuery.Proofs.Patch.Locality

/-!
# Changing an integer

A row in which one number became another differs from it in this place only (`Change.between_overwrite`), and
the patch adds the difference of the two. The sum is taken in binary64, and so is the difference unless both
integers and what is between them fit 64 bits. So the patch need not lead to the integer that it was written
for: there may be no difference, the sum may be another integer, or it may be too large to be stored as one.
`Patch.between_int_iff` says for which integers it does.
-/

namespace KeyedQuery

/-! ## Other values at the end of a path -/

namespace Value

/-- Put a value in the place of the one at the end of a path. -/
def overwrite? (new : Value) (path : Path) (u : Value) : Option (Option Value) :=
  alter (fun _ => some (some new)) path (some u)

variable {new v u w : Value}

theorem exists_overwrite? (new : Value) : ∀ {path : Path} {u : Value}, follow? path u = some v →
    ∃ w, overwrite? new path u = some (some w) ∧ follow? path w = some new
  | [], u, _ => ⟨new, rfl, rfl⟩
  | .key k :: rest, u, h => by
    cases u with
    | map fs =>
      obtain ⟨x, hx, hrest⟩ := Option.bind_eq_some_iff.mp h
      obtain ⟨w, hw, hnew⟩ := exists_overwrite? new hrest
      refine ⟨.map (Fields.put fs k (some w)), ?_, ?_⟩
      · rw [overwrite?] at hw ⊢
        rw [alter, hx, hw]
        rfl
      · rw [follow?, Fields.get?_put, if_pos rfl]
        exact hnew
    | _ => cases h
  | .index i :: rest, u, h => by
    cases u with
    | list xs =>
      obtain ⟨x, hx, hrest⟩ := Option.bind_eq_some_iff.mp h
      obtain ⟨w, hw, hnew⟩ := exists_overwrite? new hrest
      refine ⟨.list (putElement xs i (some w)), ?_, ?_⟩
      · rw [overwrite?] at hw ⊢
        rw [alter, hx, hw]
        rfl
      · have hi : i ≤ xs.length := Nat.le_of_lt (List.getElem?_eq_some_iff.mp hx).1
        rw [follow?, getElem?_putElement_some hi, if_pos rfl]
        exact hnew
    | _ => cases h

/-- An assignment where there is a value puts the other one in its place. -/
theorem overwrite?_of_setAt? {path : Path} (hfollow : follow? path u = some v)
    (hset : setAt? new path u = some w) :
    overwrite? new path u = some (some w) ∧ follow? path w = some new := by
  obtain ⟨w', hw', hnew⟩ := exists_overwrite? new hfollow
  have hne : path ≠ [] := by
    rintro rfl
    cases hset
  obtain ⟨place, hplace, hset', -⟩ := alter_eq_some hne hw'
  obtain rfl := Option.some.inj (hset.symm.trans (hset' new (Option.some.inj hplace).symm))
  exact ⟨hw', hnew⟩

end Value

/-! ## Finding one change -/

namespace Change

/-- What is found, after the room for it has been checked. -/
def FindsWithin (room : Prop) (found result : Except PatchFault (List Change)) : Prop :=
  room ∧ result = found ∨ ¬room ∧ ∃ fault, result = .error fault

/-- What is found in one part and then in others. -/
def findBoth (first others : Except PatchFault (List Change)) : Except PatchFault (List Change) := do
  let changes ← first
  let more ← others
  .ok (changes ++ more)

variable {p q : Prop} {found found' result result' : Except PatchFault (List Change)}

@[simp]
theorem findBoth_nil_left (found : Except PatchFault (List Change)) : findBoth (.ok []) found = found := by
  cases found <;> rfl

@[simp]
theorem findBoth_nil_right (found : Except PatchFault (List Change)) : findBoth found (.ok []) = found := by
  cases found with
  | error fault => rfl
  | ok changes => exact congrArg Except.ok (List.append_nil changes)

theorem FindsWithin.congr (h : FindsWithin p found result) (hpq : p ↔ q) : FindsWithin q found result := by
  rwa [← propext hpq]

theorem FindsWithin.both (h : FindsWithin p found result) (h' : FindsWithin q found' result') :
    FindsWithin (p ∧ q) (findBoth found found') (findBoth result result') := by
  rcases h with ⟨hp, rfl⟩ | ⟨hp, fault, rfl⟩
  · rcases h' with ⟨hq, rfl⟩ | ⟨hq, fault, rfl⟩
    · exact .inl ⟨⟨hp, hq⟩, rfl⟩
    · refine .inr ⟨fun h => hq h.2, ?_⟩
      cases result with
      | error fault => exact ⟨fault, rfl⟩
      | ok changes => exact ⟨fault, rfl⟩
  · exact .inr ⟨fun h => hp h.1, fault, rfl⟩

section

variable {ι : Type} {compare : ι → Except PatchFault (List Change)} {room : ι → Prop} {i : ι}

theorem mapM_flatten_cons (j : ι) (parts : List ι) :
    (do .ok (← (j :: parts).mapM compare).flatten : Except PatchFault (List Change)) =
      findBoth (compare j) (do .ok (← parts.mapM compare).flatten) := by
  rw [List.mapM_cons, findBoth]
  cases compare j with
  | error fault => rfl
  | ok changes =>
    cases parts.mapM compare <;> simp [bind, Except.bind, pure, Except.pure]

/-- If all parts but one come out empty, the changes are those of that one. -/
theorem findsWithin_parts [DecidableEq ι] : ∀ {parts : List ι}, parts.Nodup →
    (∀ j ∈ parts, j ≠ i → FindsWithin (room j) (.ok []) (compare j)) →
    FindsWithin (room i) found (compare i) →
    FindsWithin (∀ j ∈ parts, room j) (if i ∈ parts then found else .ok [])
      (do .ok (← parts.mapM compare).flatten)
  | [], _, _, _ => .inl ⟨by simp, rfl⟩
  | j :: parts, hnodup, hothers, hone => by
    obtain ⟨hj, hnodup⟩ := List.nodup_cons.mp hnodup
    have hrest := findsWithin_parts hnodup (fun k hk => hothers k (List.mem_cons_of_mem j hk)) hone
    rw [mapM_flatten_cons]
    by_cases hij : j = i
    · subst hij
      rw [if_neg hj] at hrest
      simpa [FindsWithin] using hone.both hrest
    · simpa [FindsWithin, Ne.symm hij] using (hothers j List.mem_cons_self hij).both hrest

/-- Between values with parts of which all but one are the same, what is found is what is found in that
one. -/
theorem findsWithin_between [DecidableEq ι] {levels : Nat} {pathOf : ι → Path}
    {prevOf nextOf : ι → Option Value} {parts : List ι} {x y : Value} (hnodup : parts.Nodup)
    (hi : i ∈ parts) (hprev : prevOf i = some x) (hnext : nextOf i = some y)
    (hsome : ∀ j ∈ parts, prevOf j ≠ none) (hsame : ∀ j, j ≠ i → nextOf j = prevOf j)
    (hone : FindsWithin (x.NestedWithin levels) found (between levels (pathOf i) (some x) (some y))) :
    FindsWithin (∀ j ∈ parts, ∀ v, prevOf j = some v → v.NestedWithin levels) found
      (do .ok (← parts.mapM fun j => between levels (pathOf j) (prevOf j) (nextOf j)).flatten) := by
  have hall : FindsWithin (∀ j ∈ parts, ∀ v, prevOf j = some v → v.NestedWithin levels)
      (if i ∈ parts then found else .ok [])
      (do .ok (← parts.mapM fun j => between levels (pathOf j) (prevOf j) (nextOf j)).flatten) := by
    refine findsWithin_parts hnodup (fun j hj hne => ?_) ?_
    · obtain ⟨v, hv⟩ := Option.ne_none_iff_exists'.mp (hsome j hj)
      rw [hsame j hne, hv]
      exact FindsWithin.congr (between_self levels (pathOf j) v) (by simp)
    · rw [hprev, hnext]
      exact hone.congr (by simp)
  rwa [if_pos hi] at hall

end

/-- Between values that differ in a number at the end of a path, what is found is what the two numbers
give. -/
theorem findsWithin_overwrite {m n : Number} : ∀ {room : Nat} {before path : Path} {u w : Value},
    Value.follow? path u = some (.num m) → Value.overwrite? (.num n) path u = some (some w) →
    FindsWithin (u.NestedWithin room) (between 1 (before ++ path) (some (.num m)) (some (.num n)))
      (between room before (some u) (some w))
  | 0, _, _, _, _, _, _ => .inr ⟨nofun, _, rfl⟩
  | room + 1, before, [], u, w, hfollow, hset => by
    obtain rfl := Option.some.inj hfollow
    obtain rfl := Option.some.inj (Option.some.inj hset)
    refine .inl ⟨.num m, ?_⟩
    rw [List.append_nil]
    rfl
  | room + 1, before, .key k :: rest, u, w, hfollow, hset => by
    cases u with
    | map fs =>
      obtain ⟨x, hx, hrest⟩ := Option.bind_eq_some_iff.mp hfollow
      obtain ⟨y, hy, -⟩ := Value.exists_overwrite? (.num n) hrest
      obtain rfl : .map (Fields.put fs k (some y)) = w := by
        rw [Value.overwrite?] at hy hset
        rw [Value.alter, hx, hy] at hset
        exact Option.some.inj (Option.some.inj hset)
      have hget := Fields.get?_put fs k (some y)
      have hinner : FindsWithin (x.NestedWithin room)
          (between 1 (before ++ [.key k] ++ rest) (some (.num m)) (some (.num n)))
          (between room (before ++ [.key k]) (some x) (some y)) := findsWithin_overwrite hrest hy
      rw [List.append_assoc] at hinner
      rw [between]
      refine (findsWithin_between (Fields.ordered_ofList _).nodup (mem_eitherNames.mpr (.inl (by simp [hx])))
        hx ((hget k).trans (if_pos rfl)) (fun j hj => ?_) (fun j hne => (hget j).trans (if_neg hne.symm))
        hinner).congr ⟨fun h => .map fun j v hv => ?_, fun h j _ v hv => ?_⟩
      · by_cases hjk : k = j
        · simp [← hjk, hx]
        · simpa [hget, hjk] using mem_eitherNames.mp hj
      · exact h j (mem_eitherNames.mpr (.inl (by simp [hv]))) v hv
      · cases h with
        | map h => exact h j v hv
    | _ => cases hfollow
  | room + 1, before, .index i :: rest, u, w, hfollow, hset => by
    cases u with
    | list xs =>
      obtain ⟨x, hx, hrest⟩ := Option.bind_eq_some_iff.mp hfollow
      obtain ⟨y, hy, -⟩ := Value.exists_overwrite? (.num n) hrest
      obtain rfl : .list (putElement xs i (some y)) = w := by
        rw [Value.overwrite?] at hy hset
        rw [Value.alter, hx, hy] at hset
        exact Option.some.inj (Option.some.inj hset)
      have hi : i < xs.length := (List.getElem?_eq_some_iff.mp hx).1
      have hget := getElem?_putElement_some (Nat.le_of_lt hi) y
      have hlength : (putElement xs i (some y)).length = xs.length := by simp [putElement, hi]
      have hinner : FindsWithin (x.NestedWithin room)
          (between 1 (before ++ [.index i] ++ rest) (some (.num m)) (some (.num n)))
          (between room (before ++ [.index i]) (some x) (some y)) := findsWithin_overwrite hrest hy
      rw [List.append_assoc] at hinner
      rw [between, hlength, Nat.max_self]
      refine (findsWithin_between List.nodup_range (List.mem_range.mpr hi) hx
        ((hget i).trans (if_pos rfl)) (fun j hj => ?_) (fun j hne => (hget j).trans (if_neg hne.symm))
        hinner).congr ⟨fun h => .list fun v hv => ?_, fun h j _ v hv => ?_⟩
      · simpa using hj
      · obtain ⟨j, hj, rfl⟩ := List.getElem_of_mem hv
        exact h j (List.mem_range.mpr hj) _ (List.getElem?_eq_getElem hj)
      · cases h with
        | list h => exact h v (List.mem_of_getElem? hv)
    | _ => cases hfollow

/-! ## Adding the difference -/

/-- Between two numbers there is the addition of their difference, unless they agree. -/
theorem between_numbers_eq_ok_iff {m n : Number} {path : Path} {changes : List Change} :
    between 1 path (some (.num m)) (some (.num n)) = .ok changes ↔
      m.agrees n = true ∧ changes = [] ∨
        m.agrees n = false ∧ ∃ d, difference m n = .ok d ∧ changes = [.add path d] := by
  rw [between]
  cases m.agrees n with
  | true => simp [eq_comm]
  | false =>
    cases difference m n with
    | error fault => simp [bind, Except.bind]
    | ok d => simp [bind, Except.bind, eq_comm]

/-- To the first integer, as it is read in binary64, the difference adds up to exactly the second one. -/
def AddsUp (a b : Int) : Prop :=
  ∃ n, difference (.int a) (.int b) = .ok n ∧
    (Binary64.ofInt a).signedUnits + n.toBinary64.signedUnits = b * Binary64.unitsPerOne

variable {a b : Int} {n d : Number}

/-- A difference is an integer of 64 bits or the rounded one. -/
theorem exists_of_difference {m : Number} (h : difference m n = .ok d) :
    (∃ k, d = .int k) ∨ ∃ x, n.toBinary64.sub? m.toBinary64 = some x ∧ d = .real x := by
  unfold difference at h
  dsimp only at h
  generalize n.toBinary64.sub? m.toBinary64 = rounded at h ⊢
  split at h
  · exact .inl ⟨_, (Except.ok.inj h).symm⟩
  · cases rounded with
    | some x => exact .inr ⟨x, rfl, (Except.ok.inj h).symm⟩
    | none => cases h

/-- The difference of two integers is an integer in binary64. -/
theorem exists_signedUnits_difference (h : difference (.int a) (.int b) = .ok n) :
    ∃ k : Int, n.toBinary64.signedUnits = k * Binary64.unitsPerOne := by
  rcases exists_of_difference h with ⟨k, rfl⟩ | ⟨x, hx, rfl⟩
  · exact (Binary64.roundedFromInt_ofInt k).exists_signedUnits
  · obtain ⟨p, hp⟩ := (Binary64.roundedFromInt_ofInt a).exists_signedUnits
    obtain ⟨q, hq⟩ := (Binary64.roundedFromInt_ofInt b).exists_signedUnits
    exact Binary64.exists_signedUnits_sub? hq hp hx

theorem ofBinary64_eq_int_iff {x : Binary64} : Number.ofBinary64 x = .int b ↔ x.integer? = some b := by
  unfold Number.ofBinary64
  cases x.integer? <;> simp

/-- The sum is stored as an integer exactly if it is this one without rounding, and below the bound. -/
theorem sum?_eq_int_iff {m n : Number} {p q : Int} (hp : m.toBinary64.signedUnits = p * Binary64.unitsPerOne)
    (hq : n.toBinary64.signedUnits = q * Binary64.unitsPerOne) :
    sum? (some (.num m)) n = some (.num (.int b)) ↔ b.natAbs < Binary64.integerBound ∧
      m.toBinary64.signedUnits + n.toBinary64.signedUnits = b * Binary64.unitsPerOne := by
  rw [← Binary64.add?_integer?_iff hp hq]
  show ((m.toBinary64.add? n.toBinary64).map fun x => Value.num (Number.ofBinary64 x)) = _ ↔ _
  simp only [Option.map_eq_some_iff, Value.num.injEq, ofBinary64_eq_int_iff]

/-- Integers and differences of at most 53 bits add up. -/
theorem addsUp_of_lt (ha : a.natAbs < twoPow 53) (hb : b.natAbs < twoPow 53)
    (hab : (b - a).natAbs < twoPow 53) : AddsUp a b := by
  refine ⟨.int (b - a), ?_, ?_⟩
  · unfold difference
    simp only [Number.signed64?_int ha, Number.signed64?_int hb, bind, Option.bind,
      Number.signed64?_int hab]
  · have hsum := Binary64.signedUnits_add_ofInt ha hab
    rwa [add_sub_cancel] at hsum

/-- Integers that add up to one of at most 53 bits are told apart. -/
theorem not_agrees_of_ne (hne : a ≠ b) (hb : b.natAbs < Binary64.integerBound) :
    (Number.int a).agrees (.int b) = false :=
  Bool.eq_false_iff.mpr fun h =>
    hne (Number.eq_of_int_agrees_int (hb.trans Binary64.integerBound_lt_twoPow) h)

end Change

/-! ## Patches -/

/-- An action that is no removal, on its own. -/
theorem UpdateAction.applyAll_singleton {item : Item} {action : UpdateAction} (h : removal? action = none) :
    applyAll item [action] = apply item action := by
  simp only [applyAll, List.foldlM_cons, List.foldlM_nil, List.filterMap_cons, h, List.filterMap_nil]
  cases apply item action <;> rfl

namespace Patch

variable {prev next : Item} {path : Path} {a b : Int}

theorem nestedOutside_nil_iff :
    prev.NestedOutside [] ↔ Value.NestedWithin (maxDepth + 1) (.map prev) := by
  refine ⟨fun h => .map fun k v hv => h k (by simp) v hv, fun h k _ v hv => ?_⟩
  cases h with
  | map h => exact h k v hv

/-- Between rows that differ in one integer there is the change of this integer, if the row is not nested too
deep. -/
theorem findsWithin_betweenItems {m n : Number} (hfollow : Value.follow? path (.map prev) = some (.num m))
    (hset : Value.setAt? (.num n) path (.map prev) = some (.map next)) :
    Change.FindsWithin (prev.NestedOutside []) (Change.between 1 path (some (.num m)) (some (.num n)))
      (Change.betweenItems prev next) := by
  have hitems : Change.betweenItems prev next =
      Change.between (maxDepth + 1) [] (some (.map prev)) (some (.map next)) := rfl
  rw [hitems]
  exact (Change.findsWithin_overwrite hfollow (Value.overwrite?_of_setAt? hfollow hset).1).congr
    nestedOutside_nil_iff.symm

/-- The patch of one addition carries this one out. -/
theorem update_add {n : Number} (hpath : path.Readable) (hkey : ∃ k rest, path = .key k :: rest) :
    Item.update (ofChanges [.add path n]).attributes (ofChanges [.add path n]).expression prev =
      UpdateAction.apply prev (.add path (.num n)) := by
  obtain ⟨k, rest, rfl⟩ := hkey
  have hreadable : ∀ c ∈ [Change.add (.key k :: rest) n], c.Readable := by
    intro c hc
    obtain rfl := List.mem_singleton.mp hc
    exact ⟨k, rest, rfl, hpath⟩
  have hactions : Change.actionsIn .set [Change.add (.key k :: rest) n] ++
      Change.actionsIn .remove [Change.add (.key k :: rest) n] ++
      Change.actionsIn .add [Change.add (.key k :: rest) n] = [.add (.key k :: rest) (.num n)] := rfl
  rw [Item.update, parse_ofChanges hreadable, hactions]
  simp only [bind, Except.bind]
  exact UpdateAction.applyAll_singleton rfl

/-- Adding to a number whose sum is another one puts that in its place. -/
theorem apply_add_eq_ok_iff {n : Number} {v : Value} {after : Item}
    (hfollow : Value.follow? path (.map prev) = some v)
    (hset : Value.setAt? (.num (.int b)) path (.map prev) = some (.map next)) :
    UpdateAction.apply prev (.add path (.num n)) = .ok after ∧
        Value.follow? path (.map after) = some (.num (.int b)) ↔
      Change.sum? (some v) n = some (.num (.int b)) ∧ after = next := by
  rw [UpdateAction.apply_add, hfollow]
  generalize Change.sum? (some v) n = sum
  cases sum with
  | none => simp
  | some w =>
    dsimp only
    constructor
    · rintro ⟨hafter, hb⟩
      have hplace : Value.setAt? w path (.map prev) = some (.map after) := by
        unfold UpdateAction.setIn at hafter
        split at hafter
        · rename_i fields hfields
          rw [hfields, Except.ok.inj hafter]
        · cases hafter
      have hw := (Value.overwrite?_of_setAt? hfollow hplace).2
      obtain rfl := Option.some.inj (hb.symm.trans hw)
      exact ⟨rfl, by simpa [hset] using hplace.symm⟩
    · rintro ⟨hw, rfl⟩
      obtain rfl := Option.some.inj hw
      exact ⟨by rw [UpdateAction.setIn, hset], (Value.overwrite?_of_setAt? hfollow hset).2⟩

/-- A path to a number of a row starts with a name. -/
theorem exists_key_of_follow? {m : Number} (h : Value.follow? path (.map prev) = some (.num m)) :
    ∃ k rest, path = .key k :: rest := by
  match path, h with
  | .key k :: rest, _ => exact ⟨k, rest, rfl⟩

theorem exists_between_int_iff (hpath : path.Readable) (hne : a ≠ b)
    (hfollow : Value.follow? path (.map prev) = some (.num (.int a)))
    (hset : Value.setAt? (.num (.int b)) path (.map prev) = some (.map next)) (after : Item) :
    (∃ patch, between prev next = .ok patch ∧
        Item.update patch.attributes patch.expression prev = .ok after ∧
        Value.follow? path (.map after) = some (.num (.int b))) ↔
      after = next ∧ prev.NestedOutside [] ∧ b.natAbs < Binary64.integerBound ∧ Change.AddsUp a b := by
  obtain ⟨p, hp⟩ := (Binary64.roundedFromInt_ofInt a).exists_signedUnits
  have hkey := exists_key_of_follow? hfollow
  have hitems := findsWithin_betweenItems hfollow hset
  constructor
  · rintro ⟨patch, hpatch, hupdate, hafter⟩
    obtain ⟨changes, hchanges, hempty, rfl⟩ := exists_of_between hpatch
    rcases hitems with ⟨hnested, hfound⟩ | ⟨-, fault, hfault⟩
    · rcases Change.between_numbers_eq_ok_iff.mp (hfound.symm.trans hchanges) with
        ⟨-, rfl⟩ | ⟨-, n, hn, rfl⟩
      · cases hempty
      · rw [update_add hpath hkey] at hupdate
        obtain ⟨hsum, rfl⟩ := (apply_add_eq_ok_iff hfollow hset).mp ⟨hupdate, hafter⟩
        obtain ⟨q, hq⟩ := Change.exists_signedUnits_difference hn
        obtain ⟨hb, hunits⟩ := (Change.sum?_eq_int_iff (m := .int a) hp hq).mp hsum
        exact ⟨rfl, hnested, hb, n, hn, hunits⟩
    · cases hfault.symm.trans hchanges
  · rintro ⟨rfl, hnested, hb, n, hn, hunits⟩
    have hchanges : Change.betweenItems prev after = .ok [.add path n] := by
      rcases hitems with ⟨-, hfound⟩ | ⟨hnot, -⟩
      · exact hfound.trans
          (Change.between_numbers_eq_ok_iff.mpr (.inr ⟨Change.not_agrees_of_ne hne hb, n, hn, rfl⟩))
      · exact absurd hnested hnot
    obtain ⟨q, hq⟩ := Change.exists_signedUnits_difference hn
    have hsum := (Change.sum?_eq_int_iff (m := .int a) hp hq).mpr ⟨hb, hunits⟩
    have happly := (apply_add_eq_ok_iff hfollow hset).mpr ⟨hsum, rfl⟩
    refine ⟨ofChanges [.add path n], ?_, ?_, happly.2⟩
    · rw [between, hchanges]
      rfl
    · rw [update_add hpath hkey]
      exact happly.1

/-- A patch from one integer to another one leads there exactly if nothing in the row is nested too deep, the
second integer is below the bound, and the difference adds up. Then the row is the wanted one in everything
else. It is so for integers of at most 53 bits with a difference of at most 53 bits. -/
theorem between_int_iff (hpath : path.Readable) (hne : a ≠ b)
    (hfollow : Value.follow? path (.map prev) = some (.num (.int a)))
    (hset : Value.setAt? (.num (.int b)) path (.map prev) = some (.map next)) :
    ((∃ patch after, between prev next = .ok patch ∧
        Item.update patch.attributes patch.expression prev = .ok after ∧
        Value.follow? path (.map after) = some (.num (.int b))) ↔
      prev.NestedOutside [] ∧ b.natAbs < Binary64.integerBound ∧ Change.AddsUp a b) ∧
    (prev.NestedOutside [] → b.natAbs < Binary64.integerBound → Change.AddsUp a b →
      ∃ patch, between prev next = .ok patch ∧
        Item.update patch.attributes patch.expression prev = .ok next) ∧
    (a.natAbs < twoPow 53 → b.natAbs < Binary64.integerBound → (b - a).natAbs < twoPow 53 →
      Change.AddsUp a b) := by
  have hiff := exists_between_int_iff hpath hne hfollow hset
  refine ⟨⟨?_, fun ⟨hnested, hb, hsum⟩ => ?_⟩, fun hnested hb hsum => ?_, fun ha hb hab => ?_⟩
  · rintro ⟨patch, after, h⟩
    exact ((hiff after).mp ⟨patch, h⟩).2
  · obtain ⟨patch, h⟩ := (hiff next).mpr ⟨rfl, hnested, hb, hsum⟩
    exact ⟨patch, next, h⟩
  · obtain ⟨patch, hpatch, hupdate, -⟩ := (hiff next).mpr ⟨rfl, hnested, hb, hsum⟩
    exact ⟨patch, hpatch, hupdate⟩
  · exact Change.addsUp_of_lt ha (hb.trans Binary64.integerBound_lt_twoPow) hab

/-- A counter inside a map. -/
theorem between_int_iff_counter : ∃ patch,
    between [("seen", .map [("n", .num (.int 41))])] [("seen", .map [("n", .num (.int 42))])] = .ok patch ∧
      Item.update patch.attributes patch.expression [("seen", .map [("n", .num (.int 41))])] =
        .ok [("seen", .map [("n", .num (.int 42))])] := by
  have hnested : Item.NestedOutside [] [("seen", .map [("n", .num (.int 41))])] := by
    intro k _ v hv
    obtain ⟨-, rfl⟩ : "seen" = k ∧ Value.map [("n", .num (.int 41))] = v := by
      simpa [Fields.get?_cons] using hv
    refine .map fun j w hw => ?_
    obtain ⟨-, rfl⟩ : "n" = j ∧ Value.num (.int 41) = w := by simpa [Fields.get?_cons] using hw
    exact .num _
  have hfollow : Value.follow? [.key "seen", .key "n"] (.map [("seen", .map [("n", .num (.int 41))])]) =
      some (.num (.int 41)) := by decide
  have hset : Value.setAt? (.num (.int 42)) [.key "seen", .key "n"]
      (.map [("seen", .map [("n", .num (.int 41))])]) =
        some (.map [("seen", .map [("n", .num (.int 42))])]) := by decide
  obtain ⟨-, hpatch, hsum⟩ := between_int_iff (by simp [Path.Readable]) (by decide) hfollow hset
  exact hpatch hnested (by decide) (hsum (by decide) (by decide) (by decide))

/-- From an integer of 54 bits that binary64 rounds down, the exact difference to 5 leads to 4. -/
theorem not_between_int : ¬∀ (prev next : Item) (path : Path) (a b : Int), a ≠ b →
    path.length ≤ maxDepth → Value.follow? path (.map prev) = some (.num (.int a)) →
    Value.setAt? (.num (.int b)) path (.map prev) = some (.map next) →
    ∃ patch after, between prev next = .ok patch ∧
      Item.update patch.attributes patch.expression prev = .ok after ∧
      Value.follow? path (.map after) = some (.num (.int b)) := by
  intro h
  obtain ⟨patch, after, hpatch, hupdate, hafter⟩ := h [("n", .num (.int 9007199254740993))]
    [("n", .num (.int 5))] [.key "n"] 9007199254740993 5 (by decide) (by decide) (by decide) (by decide)
  have hadd : between [("n", .num (.int 9007199254740993))] [("n", .num (.int 5))] =
      .ok ⟨"ADD #f0 :v0", [("#f0", "n")], [(":v0", .num (.int (-9007199254740988)))]⟩ := by
    decide +kernel
  obtain rfl := Except.ok.inj (hadd.symm.trans hpatch)
  have hfour : Item.update ⟨[("#f0", "n")], [(":v0", .num (.int (-9007199254740988)))]⟩ "ADD #f0 :v0"
      [("n", .num (.int 9007199254740993))] = .ok [("n", .num (.int 4))] := by
    decide +kernel
  obtain rfl := Except.ok.inj (hfour.symm.trans hupdate)
  revert hafter
  decide

end Patch

end KeyedQuery
