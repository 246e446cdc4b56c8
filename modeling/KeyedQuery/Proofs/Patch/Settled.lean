import KeyedQuery.Proofs.Patch.Locality
import KeyedQuery.Proofs.Patch.Roundtrip

/-!
# Settled changes

A change is settled where it has been made: what it assigns is in its place, or what it removes is gone, or
there is a number to add to (`Change.Settled`). Carried out there, an assignment or a removal changes nothing
(`Change.Settled.effect_eq`), and an addition upholds the removals and the other additions
(`Change.Upholds`). So settled changes of a row come down to the additions among them
(`Change.applyAll_of_settled`).
-/

namespace KeyedQuery

/-- The names are ordered in all maps that the value holds. -/
inductive Value.IsOrdered : Value → Prop
  | null : IsOrdered .null
  | bool (b : Bool) : IsOrdered (.bool b)
  | num (n : Number) : IsOrdered (.num n)
  | str (s : String) : IsOrdered (.str s)
  | list {xs : List Value} (h : ∀ x ∈ xs, IsOrdered x) : IsOrdered (.list xs)
  | map {fs : List (String × Value)} (ho : Fields.Ordered fs)
    (h : ∀ field ∈ fs, IsOrdered field.2) : IsOrdered (.map fs)

/-- The names are ordered in the row and in all maps that it holds. -/
def Item.IsOrdered (item : Item) : Prop :=
  Value.IsOrdered (.map item)

theorem Value.isOrdered_map_iff {fs : Fields Value} : IsOrdered (.map fs) ↔
    fs.Ordered ∧ ∀ (k : String) (v : Value), Fields.get? fs k = some v → v.IsOrdered := by
  constructor
  · intro h
    cases h with
    | map ho h => exact ⟨ho, fun k v hv => h _ (Fields.mem_of_get?_eq_some hv)⟩
  · exact fun h => .map h.1 fun field hfield => h.2 field.1 field.2 (h.1.get?_of_mem hfield)

theorem Value.isOrdered_list_iff {xs : List Value} : IsOrdered (.list xs) ↔
    ∀ (i : Nat) (v : Value), xs[i]? = some v → v.IsOrdered := by
  constructor
  · intro h
    cases h with
    | list h => exact fun i v hv => h v (List.mem_of_getElem? hv)
  · refine fun h => .list fun x hx => ?_
    obtain ⟨i, hi⟩ := List.mem_iff_getElem?.mp hx
    exact h i x hi

/-! ## Places -/

namespace Value

/-- The place at the end of a path, if the places on the way are there. -/
def placeAt : Path → Option Value → Option (Option Value)
  | [], place => some place
  | .key k :: rest, some (.map fs) => placeAt rest (Fields.get? fs k)
  | .index i :: rest, some (.list xs) => placeAt rest xs[i]?
  | _, _ => none

theorem placeAt_none {path : Path} {v : Value} : placeAt path none ≠ some (some v) := by
  cases path with
  | nil => simp [placeAt]
  | cons s rest => cases s <;> simp [placeAt]

theorem follow?_of_placeAt : ∀ {path : Path} {u v : Value},
    placeAt path (some u) = some (some v) → follow? path u = some v
  | [], _, _, h => Option.some.inj h
  | .key k :: rest, u, v, h => by
    cases u with
    | map fs =>
      rw [placeAt] at h
      rw [follow?]
      cases hx : Fields.get? fs k with
      | none =>
        rw [hx] at h
        exact absurd h placeAt_none
      | some x =>
        rw [hx] at h
        exact follow?_of_placeAt h
    | _ => cases h
  | .index i :: rest, u, v, h => by
    cases u with
    | list xs =>
      rw [placeAt] at h
      rw [follow?]
      cases hx : xs[i]? with
      | none =>
        rw [hx] at h
        exact absurd h placeAt_none
      | some x =>
        rw [hx] at h
        exact follow?_of_placeAt h
    | _ => cases h

/-- A place behind a step is there only in a map or a list. -/
theorem placeAt_cons_eq_some {s : Segment} {rest : Path} {place inner : Option Value}
    (h : placeAt (s :: rest) place = some inner) :
    (∃ k fs, s = .key k ∧ place = some (.map fs) ∧ placeAt rest (Fields.get? fs k) = some inner) ∨
      ∃ i xs, s = .index i ∧ place = some (.list xs) ∧ placeAt rest xs[i]? = some inner := by
  cases place with
  | none => cases s <;> cases h
  | some u =>
    cases s with
    | key k =>
      cases u with
      | map fs => exact .inl ⟨k, fs, rfl, rfl, h⟩
      | _ => cases h
    | index i =>
      cases u with
      | list xs => exact .inr ⟨i, xs, rfl, rfl, h⟩
      | _ => cases h

/-- A change of a place that is there has an effect if the place can be changed. -/
theorem exists_alter {f : Option Value → Option (Option Value)} {first second : Option Value}
    (hf : f first = some second) : ∀ {path : Path} {place : Option Value},
      placeAt path place = some first → ∃ after, alter f path place = some after
  | [], place, h => ⟨second, by rw [alter, Option.some.inj h, hf]⟩
  | _ :: rest, place, h => by
    rcases placeAt_cons_eq_some h with ⟨k, fs, rfl, rfl, hrest⟩ | ⟨i, xs, rfl, rfl, hrest⟩
    all_goals
      obtain ⟨after, hafter⟩ := exists_alter hf hrest
      exact ⟨_, by rw [alter, hafter, Option.map_some]⟩

theorem putElement_getElem? (xs : List Value) (i : Nat) : putElement xs i xs[i]? = xs := by
  cases hx : xs[i]? with
  | some x =>
    obtain ⟨hi, rfl⟩ := List.getElem?_eq_some_iff.mp hx
    simp [putElement, hi]
  | none => exact List.eraseIdx_of_length_le (List.getElem?_eq_none_iff.mp hx)

/-- A change that leaves the place at the end of a path as it is changes nothing. -/
theorem alter_eq_self {f : Option Value → Option (Option Value)} {last : Option Value}
    (hf : f last = some last) : ∀ {path : Path} {place : Option Value},
      (∀ v, place = some v → v.IsOrdered) → placeAt path place = some last →
        alter f path place = some place
  | [], place, _, h => by
    obtain rfl := Option.some.inj h
    exact hf
  | _ :: rest, place, ho, h => by
    rcases placeAt_cons_eq_some h with ⟨k, fs, rfl, rfl, hrest⟩ | ⟨i, xs, rfl, rfl, hrest⟩
    · obtain ⟨hordered, hfields⟩ := isOrdered_map_iff.mp (ho _ rfl)
      rw [alter, alter_eq_self hf (hfields k) hrest, Option.map_some, hordered.put_get?]
    · have helements := isOrdered_list_iff.mp (ho _ rfl)
      rw [alter, alter_eq_self hf (helements i) hrest, Option.map_some, putElement_getElem?]

end Value

namespace Change

/-! ## Settled changes -/

/-- The change has been made: what it assigns is in its place, or what it removes is not there. An
addition finds a number. -/
def Settled (place : Option Value) : Change → Prop
  | .set path v => Value.placeAt path place = some (some v)
  | .remove path => Value.placeAt path place = some none
  | .add path _ => ∃ m, Value.placeAt path place = some (some (.num m))

theorem settled_under_key {c : Change} {k : String} {fs : Fields Value} :
    (c.under (.key k)).Settled (some (.map fs)) ↔ c.Settled (Fields.get? fs k) := by
  cases c <;> exact Iff.rfl

theorem settled_under_index {c : Change} {i : Nat} {xs : List Value} :
    (c.under (.index i)).Settled (some (.list xs)) ↔ c.Settled xs[i]? := by
  cases c <;> exact Iff.rfl

theorem Settled.exists_place {c : Change} {place : Option Value} (h : c.Settled place) :
    ∃ inner, Value.placeAt c.path place = some inner := by
  cases c with
  | set path v => exact ⟨_, h⟩
  | remove path => exact ⟨_, h⟩
  | add path n =>
    obtain ⟨m, hm⟩ := h
    exact ⟨_, hm⟩

/-- Apart from additions, what is settled changes nothing. -/
theorem Settled.effect_eq {c : Change} {place : Option Value} (h : c.Settled place)
    (hplace : c.place ≠ .add) (ho : ∀ v, place = some v → v.IsOrdered) :
    c.effect place = some place := by
  cases c with
  | set path v => exact Value.alter_eq_self (f := (Change.set path v).atEnd) rfl ho h
  | remove path => exact Value.alter_eq_self (f := (Change.remove path).atEnd) rfl ho h
  | add path n => exact absurd rfl hplace

/-! ## Additions among settled changes -/

/-- The second value is ordered if the first is, and what is settled at the first is settled at the second,
assignments apart. -/
structure Upholds (v w : Value) : Prop where
  ordered : v.IsOrdered → w.IsOrdered
  settled : ∀ c : Change, c.place ≠ .set → c.Settled (some v) → c.Settled (some w)

theorem Upholds.refl (v : Value) : Upholds v v :=
  ⟨id, fun _ _ h => h⟩

theorem Upholds.trans {u v w : Value} (huv : Upholds u v) (hvw : Upholds v w) : Upholds u w :=
  ⟨hvw.ordered ∘ huv.ordered, fun c hc h => hvw.settled c hc (huv.settled c hc h)⟩

theorem Upholds.num (m n : Number) : Upholds (.num m) (.num n) := by
  refine ⟨fun _ => .num n, fun c hc h => ?_⟩
  obtain ⟨inner, hinner⟩ := h.exists_place
  cases hpath : c.path with
  | cons s rest =>
    rw [hpath] at hinner
    rcases Value.placeAt_cons_eq_some hinner with ⟨k, fs, -, hfs, -⟩ | ⟨i, xs, -, hxs, -⟩
    · cases hfs
    · cases hxs
  | nil =>
    cases c with
    | set path v => exact absurd rfl hc
    | remove path =>
      obtain rfl : path = [] := hpath
      cases h
    | add path k =>
      obtain rfl : path = [] := hpath
      exact ⟨n, rfl⟩

theorem exists_under {c : Change} {s : Segment} {rest : Path} (h : c.path = s :: rest) :
    ∃ d : Change, c = d.under s ∧ d.place = c.place := by
  cases c with
  | set path v => exact ⟨.set rest v, by rw [show path = s :: rest from h]; rfl, rfl⟩
  | remove path => exact ⟨.remove rest, by rw [show path = s :: rest from h]; rfl, rfl⟩
  | add path n => exact ⟨.add rest n, by rw [show path = s :: rest from h]; rfl, rfl⟩

/-- Only an assignment is settled at a map or a list itself. -/
theorem Settled.path_ne_nil {c : Change} {v : Value} (h : c.Settled (some v)) (hplace : c.place ≠ .set)
    (hv : ∀ n, v ≠ .num n) : c.path ≠ [] := by
  intro hpath
  cases c with
  | set path v => exact hplace rfl
  | remove path =>
    obtain rfl : path = [] := hpath
    cases h
  | add path k =>
    obtain rfl : path = [] := hpath
    obtain ⟨m, hm⟩ := h
    exact hv m (Option.some.inj (Option.some.inj hm))

theorem Upholds.map {fs : Fields Value} {k : String} {x y : Value} (hx : Fields.get? fs k = some x)
    (h : Upholds x y) : Upholds (.map fs) (.map (fs.put k (some y))) := by
  refine ⟨fun ho => ?_, fun c hc hsettled => ?_⟩
  · obtain ⟨hordered, hfields⟩ := Value.isOrdered_map_iff.mp ho
    refine Value.isOrdered_map_iff.mpr ⟨hordered.put k _, fun l v hv => ?_⟩
    rw [Fields.get?_put] at hv
    split at hv
    · exact Option.some.inj hv ▸ h.ordered (hfields k x hx)
    · exact hfields l v hv
  · obtain ⟨s, rest, hpath⟩ := List.exists_cons_of_ne_nil (hsettled.path_ne_nil hc (by simp))
    obtain ⟨inner, hinner⟩ := hsettled.exists_place
    rw [hpath] at hinner
    obtain ⟨d, rfl, hplace⟩ := exists_under hpath
    rcases Value.placeAt_cons_eq_some hinner with ⟨l, _, rfl, -, -⟩ | ⟨_, _, -, hmap, -⟩
    · rw [settled_under_key] at hsettled ⊢
      rw [Fields.get?_put]
      split
      · rename_i hkl
        rw [← hkl, hx] at hsettled
        exact h.settled d (hplace ▸ hc) hsettled
      · exact hsettled
    · cases hmap

theorem Upholds.list {xs : List Value} {i : Nat} {x y : Value} (hx : xs[i]? = some x)
    (h : Upholds x y) : Upholds (.list xs) (.list (putElement xs i (some y))) := by
  have hi : i ≤ xs.length := Nat.le_of_lt (List.getElem?_eq_some_iff.mp hx).1
  refine ⟨fun ho => ?_, fun c hc hsettled => ?_⟩
  · have helements := Value.isOrdered_list_iff.mp ho
    refine Value.isOrdered_list_iff.mpr fun j v hv => ?_
    rw [getElem?_putElement_some hi] at hv
    split at hv
    · exact Option.some.inj hv ▸ h.ordered (helements i x hx)
    · exact helements j v hv
  · obtain ⟨s, rest, hpath⟩ := List.exists_cons_of_ne_nil (hsettled.path_ne_nil hc (by simp))
    obtain ⟨inner, hinner⟩ := hsettled.exists_place
    rw [hpath] at hinner
    obtain ⟨d, rfl, hplace⟩ := exists_under hpath
    rcases Value.placeAt_cons_eq_some hinner with ⟨_, _, -, hlist, -⟩ | ⟨j, _, rfl, -, -⟩
    · cases hlist
    · rw [settled_under_index] at hsettled ⊢
      rw [getElem?_putElement_some hi]
      split
      · rename_i hij
        rw [← hij, hx] at hsettled
        exact h.settled d (hplace ▸ hc) hsettled
      · exact hsettled

/-- Adding to a number upholds what else is settled. -/
theorem upholds_of_add {n : Number} {path : Path} : ∀ {v w : Value},
    (Change.add path n).Settled (some v) → (Change.add path n).effect (some v) = some (some w) →
      Upholds v w := by
  induction path with
  | nil =>
    intro v w hsettled h
    obtain ⟨m, hm⟩ := hsettled
    obtain rfl : v = .num m := Option.some.inj (Option.some.inj hm)
    have hsum : (sum? (some (.num m)) n).map some = some (some w) := h
    obtain ⟨sum, hsum, hw⟩ := Option.map_eq_some_iff.mp hsum
    obtain ⟨x, -, rfl⟩ := Option.map_eq_some_iff.mp hsum
    obtain rfl := Option.some.inj hw
    exact .num m _
  | cons s rest ih =>
    intro v w hsettled h
    obtain ⟨m, hm⟩ := hsettled
    have hpart : ∀ place inner, Value.placeAt rest place = some (some (.num m)) →
        (Change.add rest n).effect place = some inner →
        ∃ x y, place = some x ∧ inner = some y ∧ Upholds x y := by
      intro place inner hplace hinner
      obtain ⟨x, rfl⟩ : ∃ x, place = some x :=
        Option.ne_none_iff_exists'.mp fun hnone => Value.placeAt_none (hnone ▸ hplace)
      obtain ⟨y, rfl⟩ : ∃ y, inner = some y := Option.ne_none_iff_exists'.mp fun hnone =>
        effect_ne_none (c := .add rest n) (fun hremove => by cases hremove) (hnone ▸ hinner)
      exact ⟨x, y, rfl, rfl, ih ⟨m, hplace⟩ hinner⟩
    rcases Value.placeAt_cons_eq_some hm with ⟨k, fs, rfl, hv, hrest⟩ | ⟨i, xs, rfl, hv, hrest⟩
    all_goals obtain rfl := Option.some.inj hv
    · obtain ⟨inner, hinner, hw⟩ :=
        Option.map_eq_some_iff.mp ((effect_under_key (.add rest n) k fs).symm.trans h)
      obtain ⟨x, y, hx, rfl, hxy⟩ := hpart _ _ hrest hinner
      obtain rfl := Option.some.inj hw
      exact .map hx hxy
    · obtain ⟨inner, hinner, hw⟩ :=
        Option.map_eq_some_iff.mp ((effect_under_index (.add rest n) i xs).symm.trans h)
      obtain ⟨x, y, hx, rfl, hxy⟩ := hpart _ _ hrest hinner
      obtain rfl := Option.some.inj hw
      exact .list hx hxy

/-! ## Settled rows -/

theorem effects_eq_self {changes : List Change} {place : Option Value}
    (h : ∀ c ∈ changes, c.effect place = some place) : effects changes place = some place := by
  induction changes with
  | nil => rfl
  | cons c changes ih =>
    rw [effects_cons, h c List.mem_cons_self]
    exact ih fun d hd => h d (List.mem_cons_of_mem c hd)

/-- An addition to a number is carried out as it is meant, unless the sum cannot be stored. -/
theorem effect_of_apply_eq_ok {path : Path} {n : Number} {item next : Item} (hpath : path ≠ [])
    (hsettled : (Change.add path n).Settled (some (.map item)))
    (h : UpdateAction.apply item (Change.add path n).action = .ok next) :
    (Change.add path n).effect (some (.map item)) = some (some (.map next)) := by
  obtain ⟨m, hm⟩ := hsettled
  cases hsum : sum? (some (.num m)) n with
  | none =>
    have hrefused : (UpdateAction.numberAt item path).add? n.toBinary64 = none := by
      rw [numberAt_eq, Value.follow?_of_placeAt hm]
      exact Option.map_eq_none_iff.mp hsum
    rw [action] at h
    unfold UpdateAction.apply at h
    dsimp only at h
    rw [hrefused] at h
    cases h
  | some v =>
    have hend : (Change.add path n).atEnd (some (.num m)) = some (some v) := by
      show (sum? (some (.num m)) n).map some = some (some v)
      rw [hsum, Option.map_some]
    obtain ⟨after, hafter⟩ := Value.exists_alter hend hm
    obtain ⟨row, rfl⟩ := effect_item (c := .add path n) hpath hafter
    obtain rfl := Except.ok.inj
      ((apply_action (c := .add path n) hpath (fun hplace => by cases hplace) hafter).symm.trans h)
    exact hafter

/-- Additions uphold what else is settled. -/
theorem upholds_of_foldlM {changes : List Change} (hplace : ∀ c ∈ changes, c.place = .add)
    (hpath : ∀ c ∈ changes, c.path ≠ []) {next : Item} : ∀ {item : Item},
      (∀ c ∈ changes, c.Settled (some (.map item))) →
      (changes.map action).foldlM UpdateAction.apply item = .ok next →
        Upholds (.map item) (.map next) := by
  induction changes with
  | nil =>
    intro item _ h
    obtain rfl := Except.ok.inj h
    exact .refl _
  | cons c changes ih =>
    intro item hsettled h
    rw [List.map_cons, List.foldlM_cons] at h
    obtain ⟨middle, happly, hrest⟩ := exists_of_bind_eq_ok h
    obtain ⟨path, n, rfl⟩ : ∃ path n, c = .add path n := by
      have hadd := hplace c List.mem_cons_self
      cases c with
      | add path n => exact ⟨path, n, rfl⟩
      | set path v => cases hadd
      | remove path => cases hadd
    have hc := hsettled _ List.mem_cons_self
    have hfirst := upholds_of_add hc
      (effect_of_apply_eq_ok (hpath _ List.mem_cons_self) hc happly)
    refine hfirst.trans (ih (fun d hd => hplace d (List.mem_cons_of_mem _ hd))
      (fun d hd => hpath d (List.mem_cons_of_mem _ hd)) (fun d hd => ?_) hrest)
    refine hfirst.settled d (fun hset => ?_) (hsettled d (List.mem_cons_of_mem _ hd))
    rw [hplace d (List.mem_cons_of_mem _ hd)] at hset
    cases hset

theorem removeAll_eq_self {changes : List Change} (hplace : ∀ c ∈ changes, c.place = .remove)
    (hpath : ∀ c ∈ changes, c.path ≠ []) {item : Item} (ho : item.IsOrdered)
    (hsettled : ∀ c ∈ changes, c.Settled (some (.map item))) :
    UpdateAction.removeAll item (changes.map path) = item := by
  unfold UpdateAction.removeAll
  refine List.foldlRecOn (motive := fun row => row = item) _ _ rfl fun row hrow path hmem => ?_
  subst hrow
  obtain ⟨c, hc, rfl⟩ := List.mem_map.mp ((stableSort_perm _ _).mem_iff.mp hmem)
  refine removeIn_path (hpath c hc) (hplace c hc) ((hsettled c hc).effect_eq ?_ ?_)
  · rw [hplace c hc]
    decide
  · intro v hv
    exact Option.some.inj hv ▸ ho

/-- On a row where all changes are settled, their actions come down to the additions. -/
theorem applyAll_of_settled {changes : List Change} {item : Item} (ho : item.IsOrdered)
    (hpath : ∀ c ∈ changes, c.path ≠ [])
    (hsettled : ∀ c ∈ changes, c.Settled (some (.map item))) :
    UpdateAction.applyAll item (actionsIn .set changes ++ actionsIn .remove changes ++
      actionsIn .add changes) = UpdateAction.applyAll item (actionsIn .add changes) := by
  have hsection : ∀ place, ∀ c ∈ inSection place changes, c ∈ changes ∧ c.place = place :=
    fun place c hc => by simpa [inSection] using hc
  have hassigned : (actionsIn .set changes).foldlM UpdateAction.apply item = .ok item := by
    refine foldlM_apply_action (fun c hc => hpath c (hsection .set c hc).1) (fun c hc => ?_)
      (effects_eq_self fun c hc => (hsettled c (hsection .set c hc).1).effect_eq ?_ ?_)
    · rw [(hsection .set c hc).2]
      decide
    · rw [(hsection .set c hc).2]
      decide
    · intro v hv
      exact Option.some.inj hv ▸ ho
  have hkept : (actionsIn .remove changes).foldlM UpdateAction.apply item = .ok item :=
    foldlM_apply_removal (fun c hc => (hsection .remove c hc).2) item
  have hfold : (actionsIn .set changes ++ actionsIn .remove changes ++
      actionsIn .add changes).foldlM UpdateAction.apply item =
        (actionsIn .add changes).foldlM UpdateAction.apply item := by
    rw [List.foldlM_append, List.foldlM_append, hassigned]
    show ((actionsIn .remove changes).foldlM UpdateAction.apply item).bind _ = _
    rw [hkept]
    rfl
  have hpaths : (actionsIn .set changes ++ actionsIn .remove changes ++
      actionsIn .add changes).filterMap UpdateAction.removal? =
        (inSection .remove changes).map path := by
    rw [List.filterMap_append, List.filterMap_append, filterMap_removal?, filterMap_removal?,
      filterMap_removal?]
    simp
  unfold UpdateAction.applyAll
  rw [hfold, hpaths, filterMap_removal?, if_neg (by decide)]
  cases hadded : (actionsIn .add changes).foldlM UpdateAction.apply item with
  | error fault => rfl
  | ok next =>
    have hupholds := upholds_of_foldlM (fun c hc => (hsection .add c hc).2)
      (fun c hc => hpath c (hsection .add c hc).1)
      (fun c hc => hsettled c (hsection .add c hc).1) hadded
    refine congrArg Except.ok (removeAll_eq_self (fun c hc => (hsection .remove c hc).2)
      (fun c hc => hpath c (hsection .remove c hc).1) (hupholds.ordered ho) fun c hc => ?_)
    refine hupholds.settled c ?_ (hsettled c (hsection .remove c hc).1)
    rw [(hsection .remove c hc).2]
    decide

end Change

end KeyedQuery
