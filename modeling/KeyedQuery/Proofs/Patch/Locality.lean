import KeyedQuery.Catalog.Row
import KeyedQuery.Proofs.Expression.Refusal
import KeyedQuery.Proofs.Patch.Between
import KeyedQuery.Proofs.Store.Pages
import KeyedQuery.Proofs.Value.Agreement

/-!
# Patches touch what they are about

A patch between two rows names attributes in which the rows differ, and carrying it out changes these
attributes only, in a way that depends on nothing else of the row (`Confined`). So the patch that puts some
attributes over a row is the same for every row with the same values in them
(`Patch.between_eq_of_sameOn`), and it does the same to each of these rows
(`Patch.confined_update`).

The other attributes matter in one way: rows are compared attribute by attribute down to
`Patch.maxDepth` levels, and an attribute that is nested deeper stands in the way of every patch, even if
it is the same in both rows (`Change.between_self`).
-/

namespace KeyedQuery

variable {names : List String}

/-! ## Rows that agree in some attributes -/

/-- The rows have the same values in some attributes. -/
def Item.SameOn (names : List String) (a b : Item) : Prop :=
  ∀ k ∈ names, Fields.get? a k = Fields.get? b k

theorem Item.SameOn.put {a b : Item} (h : a.SameOn names b) (k : String) (place : Option Value) :
    Item.SameOn names (Fields.put a k place) (Fields.put b k place) := by
  intro key hkey
  rw [Fields.get?_put, Fields.get?_put, h key hkey]

/-- A step that changes only some attributes of a row. Whether it succeeds and what it makes of them
depends on these attributes only. -/
structure Confined (names : List String) (f : Item → Checked Item) : Prop where
  others : ∀ {item next}, f item = .ok next → ∀ k ∉ names, Fields.get? next k = Fields.get? item k
  ordered : ∀ {item next}, f item = .ok next → Fields.Ordered item → Fields.Ordered next
  same : ∀ {item item' next}, item.SameOn names item' → f item = .ok next →
    ∃ next', f item' = .ok next' ∧ next.SameOn names next'

namespace Confined

theorem pure : Confined names fun item => .ok item where
  others h _ _ := by rw [← Except.ok.inj h]
  ordered h hordered := Except.ok.inj h ▸ hordered
  same hsame h := ⟨_, rfl, Except.ok.inj h ▸ hsame⟩

theorem bind {f g : Item → Checked Item} (hf : Confined names f) (hg : Confined names g) :
    Confined names fun item => f item >>= g where
  others h k hk := by
    obtain ⟨middle, hfirst, hsecond⟩ := exists_of_bind_eq_ok h
    rw [hg.others hsecond k hk, hf.others hfirst k hk]
  ordered h hordered := by
    obtain ⟨middle, hfirst, hsecond⟩ := exists_of_bind_eq_ok h
    exact hg.ordered hsecond (hf.ordered hfirst hordered)
  same hsame h := by
    obtain ⟨middle, hfirst, hsecond⟩ := exists_of_bind_eq_ok h
    obtain ⟨middle', hfirst', hmiddle⟩ := hf.same hsame hfirst
    obtain ⟨next', hsecond', hnext⟩ := hg.same hmiddle hsecond
    refine ⟨next', ?_, hnext⟩
    show f _ >>= g = _
    rw [hfirst']
    exact hsecond'

theorem foldlM {α : Type} {f : Item → α → Checked Item} : ∀ {xs : List α},
    (∀ x ∈ xs, Confined names fun item => f item x) → Confined names fun item => xs.foldlM f item
  | [], _ => pure
  | x :: xs, h => by
    simp only [List.foldlM_cons]
    exact (h x List.mem_cons_self).bind (foldlM fun y hy => h y (List.mem_cons_of_mem x hy))

/-- Putting something in the place of an attribute, depending on what is there. -/
theorem put {k : String} (hk : k ∈ names) (f : Option Value → Checked (Option Value)) :
    Confined names fun item => (f (Fields.get? item k)).map (Fields.put item k) where
  others h key hkey := by
    obtain ⟨place, -, rfl⟩ := exists_of_map_eq_ok h
    have hne : k ≠ key := fun heq => hkey (heq ▸ hk)
    rw [Fields.get?_put, if_neg hne]
  ordered h hordered := by
    obtain ⟨place, -, rfl⟩ := exists_of_map_eq_ok h
    exact hordered.put k place
  same hsame h := by
    obtain ⟨place, hplace, rfl⟩ := exists_of_map_eq_ok h
    refine ⟨_, ?_, hsame.put k place⟩
    rw [← hsame k hk, hplace]
    rfl

end Confined

/-! ## Actions -/

namespace UpdateAction

/-- The path that an action works on. -/
def path : UpdateAction → Path
  | .set path _ => path
  | .remove path => path
  | .add path _ => path

/-- What an assignment puts in the place of the attribute at which its path starts. -/
def placed (rest : Path) (v : Value) (place : Option Value) : Checked (Option Value) :=
  match rest with
  | [] => .ok (some v)
  | segment :: rest =>
    match Value.setAt? v (segment :: rest) (place.getD (.map [])) with
    | some u => .ok (some u)
    | none => .error .invalidPath

theorem setIn_key (item : Item) (k : String) (rest : Path) (v : Value) :
    setIn item (.key k :: rest) v = (placed rest v (Fields.get? item k)).map (Fields.put item k) := by
  cases rest with
  | nil => rfl
  | cons segment rest =>
    have hset : Value.setAt? v (.key k :: segment :: rest) (.map item) =
        (Value.setAt? v (segment :: rest) ((Fields.get? item k).getD (.map []))).map
          fun u => .map (Fields.insert item k u) := rfl
    simp only [setIn, placed, hset]
    cases Value.setAt? v (segment :: rest) ((Fields.get? item k).getD (.map [])) <;> rfl

/-- What an action other than a removal puts in the place of the attribute at which its path starts. -/
def applied (rest : Path) (place : Option Value) : UpdateAction → Checked (Option Value)
  | .set _ v => placed rest v place
  | .remove _ => .ok place
  | .add _ (.num amount) =>
    match Change.sum? (place.bind (Value.follow? rest)) amount with
    | some v => placed rest v place
    | none => .error .notFinite
  | .add _ _ => .error .notNumeric

theorem apply_add (item : Item) (path : Path) (n : Number) : apply item (.add path (.num n)) =
    match Change.sum? (Value.follow? path (.map item)) n with
    | some v => setIn item path v
    | none => .error .notFinite := by
  unfold apply
  dsimp only
  unfold Change.sum?
  rw [Change.numberAt_eq]
  generalize (Change.numberIn (Value.follow? path (.map item))).add? n.toBinary64 = sum
  cases sum <;> rfl

theorem apply_key (item : Item) {action : UpdateAction} {k : String} {rest : Path}
    (hpath : action.path = .key k :: rest) (hremoval : removal? action = none) :
    apply item action = (applied rest (Fields.get? item k) action).map (Fields.put item k) := by
  cases action with
  | set path v =>
    obtain rfl : path = .key k :: rest := hpath
    exact setIn_key item k rest v
  | remove path => cases hremoval
  | add path amount =>
    obtain rfl : path = .key k :: rest := hpath
    cases amount with
    | num n =>
      have hfollow : Value.follow? (.key k :: rest) (.map item) =
          (Fields.get? item k).bind (Value.follow? rest) := rfl
      rw [apply_add, hfollow]
      unfold applied
      dsimp only
      cases Change.sum? ((Fields.get? item k).bind (Value.follow? rest)) n with
      | none => rfl
      | some v => exact setIn_key item k rest v
    | _ => rfl

/-- What a removal leaves in the place of the attribute at which its path starts. -/
def removed (rest : Path) (place : Option Value) : Option Value :=
  match rest with
  | [] => none
  | segment :: rest => some (Value.removeAt (segment :: rest) (place.getD (.map [])))

theorem removeIn_key (item : Item) (k : String) (rest : Path) :
    removeIn item (.key k :: rest) = Fields.put item k (removed rest (Fields.get? item k)) := by
  cases rest <;> rfl

/-- The action works on some of the attributes. -/
def WorksOn (names : List String) (action : UpdateAction) : Prop :=
  ∃ k ∈ names, ∃ rest, action.path = .key k :: rest

theorem confined_apply {action : UpdateAction} (h : action.WorksOn names) :
    Confined names fun item => apply item action := by
  obtain ⟨k, hk, rest, hpath⟩ := h
  cases hremoval : removal? action with
  | none =>
    have heq : (fun item => apply item action) = fun item =>
        (applied rest (Fields.get? item k) action).map (Fields.put item k) :=
      funext fun item => apply_key item hpath hremoval
    exact heq ▸ Confined.put hk fun place => applied rest place action
  | some removal =>
    cases action with
    | remove path => exact Confined.pure
    | set path v => cases hremoval
    | add path amount => cases hremoval

theorem confined_removeAll {paths : List Path}
    (h : ∀ path ∈ paths, ∃ k ∈ names, ∃ rest, path = .key k :: rest) :
    Confined names fun item => .ok (removeAll item paths) := by
  have hfold : ∀ ps : List Path, (∀ path ∈ ps, ∃ k ∈ names, ∃ rest, path = .key k :: rest) →
      Confined names fun item => .ok (ps.foldl removeIn item) := by
    intro ps hps
    have hstep : Confined names fun item =>
        ps.foldlM (fun item path => (.ok (removeIn item path) : Checked Item)) item := by
      refine .foldlM fun path hpath => ?_
      obtain ⟨k, hk, rest, rfl⟩ := hps path hpath
      have heq : (fun item => (.ok (removeIn item (.key k :: rest)) : Checked Item)) = fun item =>
          ((.ok (removed rest (Fields.get? item k)) : Checked (Option Value))).map
            (Fields.put item k) :=
        funext fun item => congrArg Except.ok (removeIn_key item k rest)
      exact heq ▸ Confined.put hk fun place => .ok (removed rest place)
    have heq : (fun item => ps.foldlM
        (fun item path => (.ok (removeIn item path) : Checked Item)) item) =
        fun item => .ok (ps.foldl removeIn item) :=
      funext fun item => List.foldlM_pure (m := Checked)
    exact heq ▸ hstep
  unfold removeAll
  exact hfold _ fun path hpath => h path ((stableSort_perm _ _).mem_iff.mp hpath)

/-- Actions on some attributes change no others and depend on no others. -/
theorem confined_applyAll {actions : List UpdateAction} (h : ∀ action ∈ actions, action.WorksOn names) :
    Confined names fun item => applyAll item actions := by
  refine Confined.bind (f := fun item => actions.foldlM apply item)
    (.foldlM fun action haction => confined_apply (h action haction)) (confined_removeAll ?_)
  intro path hmem
  obtain ⟨action, haction, hremoval⟩ := List.mem_filterMap.mp hmem
  obtain ⟨k, hk, rest, hpath⟩ := h action haction
  cases action with
  | remove p =>
    obtain rfl := Option.some.inj hremoval
    exact ⟨k, hk, rest, hpath⟩
  | set _ _ => cases hremoval
  | add _ _ => cases hremoval

end UpdateAction

/-! ## Finding changes -/

/-- The value is nested at most some levels. -/
inductive Value.NestedWithin : Nat → Value → Prop
  | null {levels : Nat} : NestedWithin (levels + 1) .null
  | bool {levels : Nat} (b : Bool) : NestedWithin (levels + 1) (.bool b)
  | num {levels : Nat} (n : Number) : NestedWithin (levels + 1) (.num n)
  | str {levels : Nat} (s : String) : NestedWithin (levels + 1) (.str s)
  | list {levels : Nat} {xs : List Value} (h : ∀ x ∈ xs, NestedWithin levels x) :
    NestedWithin (levels + 1) (.list xs)
  | map {levels : Nat} {fs : List (String × Value)}
    (h : ∀ k v, Fields.get? fs k = some v → NestedWithin levels v) : NestedWithin (levels + 1) (.map fs)

/-- Each attribute is nested at most `Patch.maxDepth` levels, apart from some attributes. -/
def Item.NestedOutside (names : List String) (item : Item) : Prop :=
  ∀ k ∉ names, ∀ v, Fields.get? item k = some v → v.NestedWithin Patch.maxDepth

namespace Change

/-- Comparing parts with themselves finds no changes, or fails if one of the parts is nested too deep. -/
theorem mapM_between_self {ι : Type} {room : Nat} (parts : List ι) (pathOf : ι → Path)
    (partOf : ι → Option Value)
    (hpart : ∀ i ∈ parts, ∀ v, partOf i = some v →
      v.NestedWithin room ∧ between room (pathOf i) (some v) (some v) = .ok [] ∨
        ¬v.NestedWithin room ∧ ∃ fault, between room (pathOf i) (some v) (some v) = .error fault)
    (hsome : ∀ i ∈ parts, partOf i ≠ none) :
    ((∀ i ∈ parts, ∀ v, partOf i = some v → v.NestedWithin room) ∧
        parts.mapM (fun i => between room (pathOf i) (partOf i) (partOf i)) =
          .ok (parts.map fun _ => [])) ∨
      (¬(∀ i ∈ parts, ∀ v, partOf i = some v → v.NestedWithin room)) ∧
        ∃ fault, parts.mapM (fun i => between room (pathOf i) (partOf i) (partOf i)) = .error fault := by
  by_cases hall : ∀ i ∈ parts, ∀ v, partOf i = some v → v.NestedWithin room
  · refine .inl ⟨hall, mapM_eq_ok fun i hi => ?_⟩
    obtain ⟨v, hv⟩ := Option.ne_none_iff_exists'.mp (hsome i hi)
    rw [hv]
    exact ((hpart i hi v hv).resolve_right fun h => h.1 (hall i hi v hv)).2
  · refine .inr ⟨hall, ?_⟩
    cases hmapM : parts.mapM fun i => between room (pathOf i) (partOf i) (partOf i) with
    | error fault => exact ⟨fault, rfl⟩
    | ok results =>
      refine absurd (fun i hi v hv => ?_) hall
      obtain ⟨j, hj, rfl⟩ := List.getElem_of_mem hi
      have hforall := forall₂_of_mapM_eq_ok hmapM
      have hok := hforall.get hj (hforall.length_eq ▸ hj)
      rw [List.get_eq_getElem, hv] at hok
      rcases hpart _ hi v hv with ⟨hnested, -⟩ | ⟨-, fault, herror⟩
      · exact hnested
      · cases herror.symm.trans hok

/-- Comparing a value with itself finds no changes, or fails if the value is nested too deep. -/
theorem between_self : ∀ (room : Nat) (path : Path) (v : Value),
    v.NestedWithin room ∧ between room path (some v) (some v) = .ok [] ∨
      ¬v.NestedWithin room ∧ ∃ fault, between room path (some v) (some v) = .error fault
  | 0, path, v => .inr ⟨fun h => (nomatch h), PatchFault.tooDeep, rfl⟩
  | room + 1, path, v => by
    have hleaf : descends v v = false → v.NestedWithin (room + 1) →
        v.NestedWithin (room + 1) ∧ between (room + 1) path (some v) (some v) = .ok [] :=
      fun hdescends hnested =>
        ⟨hnested, by rw [between_leaf hdescends, if_pos (Value.agrees_refl v)]⟩
    cases v with
    | null => exact .inl (hleaf rfl .null)
    | bool b => exact .inl (hleaf rfl (.bool b))
    | str s => exact .inl (hleaf rfl (.str s))
    | num n =>
      refine .inl ⟨.num n, ?_⟩
      rw [between, if_pos ((Value.agrees_num n n).symm.trans (Value.agrees_refl _))]
    | list xs =>
      have hparts := mapM_between_self (List.range (max xs.length xs.length))
        (fun i => path ++ [.index i]) (fun i => xs[i]?)
        (fun i _ v _ => between_self room (path ++ [.index i]) v) (fun i hi => by
          have hlt := List.mem_range.mp hi
          rw [Nat.max_self] at hlt
          simp [hlt])
      have hiff : Value.NestedWithin (room + 1) (.list xs) ↔
          ∀ i ∈ List.range (max xs.length xs.length), ∀ v, xs[i]? = some v → v.NestedWithin room := by
        refine ⟨fun h i _ v hv => ?_, fun h => .list fun x hx => ?_⟩
        · cases h with
          | list h => exact h v (List.mem_of_getElem? hv)
        · obtain ⟨i, hi, rfl⟩ := List.getElem_of_mem hx
          exact h i (List.mem_range.mpr (by omega)) _ (List.getElem?_eq_getElem hi)
      rw [hiff, between]
      rcases hparts with ⟨hall, hok⟩ | ⟨hnot, fault, herror⟩
      · refine .inl ⟨hall, ?_⟩
        rw [hok]
        simp [bind, Except.bind]
      · exact .inr ⟨hnot, fault, by rw [herror]; rfl⟩
    | map fs =>
      have hparts := mapM_between_self (eitherNames fs fs) (fun k => path ++ [.key k]) (Fields.get? fs)
        (fun k _ v _ => between_self room (path ++ [.key k]) v)
        (fun k hk => by simpa using mem_eitherNames.mp hk)
      have hiff : Value.NestedWithin (room + 1) (.map fs) ↔
          ∀ k ∈ eitherNames fs fs, ∀ v, Fields.get? fs k = some v → v.NestedWithin room := by
        refine ⟨fun h k _ v hv => ?_, fun h => .map fun k v hv => ?_⟩
        · cases h with
          | map h => exact h k v hv
        · exact h k (mem_eitherNames.mpr (.inl (by simp [hv]))) v hv
      rw [hiff, between]
      rcases hparts with ⟨hall, hok⟩ | ⟨hnot, fault, herror⟩
      · refine .inl ⟨hall, ?_⟩
        rw [hok]
        simp [bind, Except.bind]
      · exact .inr ⟨hnot, fault, by rw [herror]; rfl⟩

/-- The change is one that comparing two places at a path may find, there or at parts of theirs. -/
inductive Arises : Change → Path → Option Value → Option Value → Prop
  | set (path : Path) (prev : Option Value) (w : Value) : Arises (.set path w) path prev (some w)
  | remove (path : Path) (v : Value) : Arises (.remove path) path (some v) none
  | add (path : Path) (m n difference : Number) :
    Arises (.add path difference) path (some (.num m)) (some (.num n))
  | field {c : Change} {path : Path} {a b : Fields Value} {k : String}
    (h : Arises c (path ++ [.key k]) (Fields.get? a k) (Fields.get? b k)) :
    Arises c path (some (.map a)) (some (.map b))
  | element {c : Change} {path : Path} {a b : List Value} {i : Nat} (hi : i < max a.length b.length)
    (h : Arises c (path ++ [.index i]) a[i]? b[i]?) : Arises c path (some (.list a)) (some (.list b))

theorem arises_of_mem_between : ∀ {room : Nat} {path : Path} {prev next : Option Value}
    {changes : List Change}, between room path prev next = .ok changes →
      ∀ c ∈ changes, Arises c path prev next
  | 0, _, _, _, _, h => by cases h
  | room + 1, path, prev, next, changes, h => by
    intro c hc
    have hsingle : ∀ {d : Change}, Arises d path prev next → [d] = changes →
        Arises c path prev next := by
      rintro d hd rfl
      exact List.mem_singleton.mp hc ▸ hd
    unfold between at h
    split at h
    · cases Except.ok.inj h
      cases hc
    · exact hsingle (.remove path _) (Except.ok.inj h)
    · obtain ⟨found, hfound, h⟩ := exists_of_bind_eq_ok h
      obtain rfl := Except.ok.inj h
      obtain ⟨cs, hcs, hc⟩ := List.mem_flatten.mp hc
      obtain ⟨k, -, hcs⟩ := exists_of_mem_of_mapM_eq_ok hfound cs hcs
      exact .field (arises_of_mem_between hcs c hc)
    · obtain ⟨found, hfound, h⟩ := exists_of_bind_eq_ok h
      obtain rfl := Except.ok.inj h
      obtain ⟨cs, hcs, hc⟩ := List.mem_flatten.mp hc
      obtain ⟨i, hi, hcs⟩ := exists_of_mem_of_mapM_eq_ok hfound cs hcs
      exact .element (List.mem_range.mp hi) (arises_of_mem_between hcs c hc)
    · split at h
      · cases Except.ok.inj h
        cases hc
      · obtain ⟨n, -, h⟩ := exists_of_bind_eq_ok h
        exact hsingle (.add path _ _ n) (Except.ok.inj h)
    · split at h
      · cases Except.ok.inj h
        cases hc
      · exact hsingle (.set path _ _) (Except.ok.inj h)
    · exact hsingle (.set path _ _) (Except.ok.inj h)

theorem Arises.path {c : Change} {path : Path} {prev next : Option Value}
    (h : Arises c path prev next) : ∃ rest, c.path = path ++ rest := by
  induction h with
  | set path prev w => exact ⟨[], (List.append_nil path).symm⟩
  | remove path v => exact ⟨[], (List.append_nil path).symm⟩
  | add path m n difference => exact ⟨[], (List.append_nil path).symm⟩
  | @field c path a b k _ ih =>
    obtain ⟨rest, hrest⟩ := ih
    exact ⟨.key k :: rest, by rw [hrest, List.append_assoc]; rfl⟩
  | @element c path a b i _ _ ih =>
    obtain ⟨rest, hrest⟩ := ih
    exact ⟨.index i :: rest, by rw [hrest, List.append_assoc]; rfl⟩

/-- The paths of the changes go on from the place that was compared. -/
theorem path_of_mem_between {room : Nat} {path : Path} {prev next : Option Value}
    {changes : List Change} (h : between room path prev next = .ok changes) :
    ∀ c ∈ changes, ∃ rest, c.path = path ++ rest :=
  fun c hc => (arises_of_mem_between h c hc).path

/-- Elements that contribute nothing may be left out. -/
theorem flatMap_eq_filter {α β : Type} {p : α → Prop} [DecidablePred p] {f : α → List β} :
    ∀ {xs : List α}, (∀ x ∈ xs, ¬p x → f x = []) → xs.flatMap f = (xs.filter p).flatMap f
  | [], _ => rfl
  | x :: xs, h => by
    have hrest := flatMap_eq_filter fun y hy => h y (List.mem_cons_of_mem x hy)
    by_cases hx : p x
    · rw [List.filter_cons_of_pos (by simpa using hx), List.flatMap_cons, List.flatMap_cons, hrest]
    · rw [List.filter_cons_of_neg (by simpa using hx), List.flatMap_cons,
        h x List.mem_cons_self hx, hrest, List.nil_append]

/-- If two rows agree apart from some attributes, the changes between them are those of these attributes,
one after another in the order of their names. -/
theorem exists_of_betweenItems {prev next : Item} {changes : List Change}
    (h : betweenItems prev next = .ok changes)
    (hkeep : ∀ k ∉ names, Fields.get? next k = Fields.get? prev k) :
    prev.NestedOutside names ∧ ∃ found : String → List Change,
      changes = ((eitherNames prev next).filter (· ∈ names)).flatMap found ∧
      ∀ k ∈ eitherNames prev next, k ∈ names →
        between Patch.maxDepth [.key k] (Fields.get? prev k) (Fields.get? next k) = .ok (found k) := by
  obtain ⟨parts, hparts, h⟩ := exists_of_bind_eq_ok h
  choose! found hfound using exists_of_mapM_eq_ok hparts
  have hself : ∀ k ∉ names, ∀ v, Fields.get? prev k = some v →
      v.NestedWithin Patch.maxDepth ∧ found k = [] := by
    intro k hk v hv
    have hmem : k ∈ eitherNames prev next := mem_eitherNames.mpr (.inl (by simp [hv]))
    have hbetween := hfound k hmem
    rw [hkeep k hk, hv] at hbetween
    rcases between_self Patch.maxDepth [.key k] v with ⟨hnested, hnil⟩ | ⟨-, fault, herror⟩
    · exact ⟨hnested, Except.ok.inj (hbetween.symm.trans hnil)⟩
    · cases herror.symm.trans hbetween
  refine ⟨fun k hk v hv => (hself k hk v hv).1, found, ?_, fun k hk _ => hfound k hk⟩
  rw [mapM_eq_ok hfound] at hparts
  obtain rfl := Except.ok.inj hparts
  rw [← Except.ok.inj h, ← List.flatMap_def]
  refine flatMap_eq_filter fun k hk hout => ?_
  have hprev : Fields.get? prev k ≠ none := by
    rcases mem_eitherNames.mp hk with hne | hne
    · exact hne
    · rwa [hkeep k hout] at hne
  obtain ⟨v, hv⟩ := Option.ne_none_iff_exists'.mp hprev
  exact (hself k hout v hv).2

/-- A change between two rows is one between the values of an attribute. -/
theorem arises_of_mem_betweenItems {prev next : Item} {changes : List Change}
    (h : betweenItems prev next = .ok changes) {c : Change} (hc : c ∈ changes) :
    ∃ k, Arises c [.key k] (Fields.get? prev k) (Fields.get? next k) := by
  obtain ⟨parts, hparts, h⟩ := exists_of_bind_eq_ok h
  obtain rfl := Except.ok.inj h
  obtain ⟨found, hfound, hc⟩ := List.mem_flatten.mp hc
  obtain ⟨k, -, hbetween⟩ := exists_of_mem_of_mapM_eq_ok hparts found hfound
  exact ⟨k, arises_of_mem_between hbetween c hc⟩

theorem rooted_of_betweenItems {prev next : Item} {changes : List Change}
    (h : betweenItems prev next = .ok changes) : ∀ c ∈ changes, ∃ k rest, c.path = .key k :: rest := by
  intro c hc
  obtain ⟨k, harises⟩ := arises_of_mem_betweenItems h hc
  exact ⟨k, harises.path⟩

/-- The actions of a patch are those of its changes. -/
theorem exists_of_mem_actionsIn {changes : List Change} {action : UpdateAction}
    (h : action ∈ actionsIn .set changes ++ actionsIn .remove changes ++ actionsIn .add changes) :
    ∃ c ∈ changes, c.action = action := by
  simp only [actionsIn, inSection, List.mem_append, List.mem_map, List.mem_filter] at h
  grind

theorem path_action (c : Change) : c.action.path = c.path := by
  cases c <;> rfl

/-- Changes to some attributes are found again between other rows that have the same values in these
attributes, unless another attribute is nested too deep. -/
theorem betweenItems_eq_of_sameOn {prev next prev' next' : Item} {changes : List Change}
    (h : betweenItems prev next = .ok changes)
    (hkeep : ∀ k ∉ names, Fields.get? next k = Fields.get? prev k)
    (hkeep' : ∀ k ∉ names, Fields.get? next' k = Fields.get? prev' k)
    (hprev : prev.SameOn names prev') (hnext : next.SameOn names next')
    (hnested : prev'.NestedOutside names) : betweenItems prev' next' = .ok changes := by
  obtain ⟨-, found, rfl, hfound⟩ := exists_of_betweenItems h hkeep
  have hmem : ∀ k ∈ names, (k ∈ eitherNames prev next ↔ k ∈ eitherNames prev' next') := by
    intro k hk
    rw [mem_eitherNames, mem_eitherNames, hprev k hk, hnext k hk]
  have hsorted : ∀ a b : Item, ((eitherNames a b).filter (· ∈ names)).Pairwise (· < ·) :=
    fun a b => List.Pairwise.filter _ (Fields.ordered_ofList (a ++ b))
  have hnodup : ∀ a b : Item, ((eitherNames a b).filter (· ∈ names)).Nodup :=
    fun a b => (Fields.ordered_ofList (a ++ b)).nodup.filter _
  have hnames : (eitherNames prev next).filter (· ∈ names) =
      (eitherNames prev' next').filter (· ∈ names) := by
    refine List.Perm.eq_of_pairwise (fun _ _ _ _ hab hba => absurd hba (String.lt_asymm hab))
      (hsorted prev next) (hsorted prev' next')
      ((List.perm_ext_iff_of_nodup (hnodup prev next) (hnodup prev' next')).mpr fun k => ?_)
    simp only [List.mem_filter, decide_eq_true_eq, and_congr_left_iff]
    exact hmem k
  have heach : ∀ k ∈ eitherNames prev' next',
      between Patch.maxDepth [.key k] (Fields.get? prev' k) (Fields.get? next' k) =
        .ok (if k ∈ names then found k else []) := by
    intro k hk
    by_cases hin : k ∈ names
    · rw [if_pos hin, ← hprev k hin, ← hnext k hin]
      exact hfound k ((hmem k hin).mpr hk) hin
    · rw [if_neg hin, hkeep' k hin]
      cases hv : Fields.get? prev' k with
      | none => rfl
      | some v =>
        exact ((between_self Patch.maxDepth [.key k] v).resolve_right
          fun hnot => hnot.1 (hnested k hin v hv)).2
  have hflat : (eitherNames prev' next').flatMap (fun k => if k ∈ names then found k else []) =
      ((eitherNames prev' next').filter (· ∈ names)).flatMap found := by
    rw [flatMap_eq_filter (p := (· ∈ names)) fun k _ hout => if_neg hout]
    exact List.flatMap_congr fun k hk => if_pos (by simpa using (List.mem_filter.mp hk).2)
  unfold betweenItems
  rw [mapM_eq_ok heach]
  show Except.ok (((eitherNames prev' next').map _).flatten) = _
  rw [← List.flatMap_def, hflat, hnames]

end Change

/-! ## Patches -/

/-- The attributes that a patch puts over a row, its key apart. -/
def KeySchema.patchedNames (keys : KeySchema) (patch : Item) : List String :=
  Fields.names (patch.filter fun field => field.1 ∉ keys.attributes)

theorem KeySchema.get?_patched (keys : KeySchema) {patch : Item} (hpatch : (Fields.names patch).Nodup)
    (item : Item) (k : String) : Fields.get? (keys.patched item patch) k =
      if k ∈ keys.patchedNames patch then Fields.get? patch k else Fields.get? item k := by
  have hnodup : (Fields.names (patch.filter fun field => field.1 ∉ keys.attributes)).Nodup :=
    hpatch.sublist (List.filter_sublist.map _)
  unfold patched
  rw [Fields.get?_merge hnodup]
  split
  · rename_i hk
    obtain ⟨v, hv⟩ := Option.isSome_iff_exists.mp (Fields.isSome_get?_iff.mpr hk)
    have hmem := List.mem_of_mem_filter (Fields.mem_of_get?_eq_some hv)
    rw [hv, Fields.get?_of_mem_of_nodup hpatch hmem]
    rfl
  · rename_i hk
    rw [Fields.get?_eq_none_iff.mpr hk]
    rfl

namespace Patch

variable {keys : KeySchema} {patch prev prev' : Item} {change : Patch}

/-- A patch is written from the changes between two rows. -/
theorem exists_of_between {next : Item} (h : between prev next = .ok change) :
    ∃ changes, Change.betweenItems prev next = .ok changes ∧ changes.isEmpty = false ∧
      change = ofChanges changes := by
  obtain ⟨changes, hchanges, h⟩ := exists_of_bind_eq_ok h
  split at h
  · cases h
  · rename_i hempty
    exact ⟨changes, hchanges, by simpa using hempty, (Except.ok.inj h).symm⟩

/-- If there is a patch that puts attributes over a row, nothing else in the row is nested too deep. -/
theorem nestedOutside_of_between (hpatch : (Fields.names patch).Nodup)
    (h : between prev (keys.patched prev patch) = .ok change) :
    prev.NestedOutside (keys.patchedNames patch) := by
  obtain ⟨changes, hchanges, -, -⟩ := exists_of_between h
  exact (Change.exists_of_betweenItems hchanges fun k hk => by
    rw [keys.get?_patched hpatch, if_neg hk]).1

/-- The patch that puts attributes over a row is the same for all rows with the same values in these
attributes, unless another attribute is nested too deep. -/
theorem between_eq_of_sameOn (hpatch : (Fields.names patch).Nodup)
    (h : between prev (keys.patched prev patch) = .ok change)
    (hsame : prev.SameOn (keys.patchedNames patch) prev')
    (hnested : prev'.NestedOutside (keys.patchedNames patch)) :
    between prev' (keys.patched prev' patch) = .ok change := by
  obtain ⟨changes, hchanges, hempty, rfl⟩ := exists_of_between h
  have hkeep : ∀ item : Item, ∀ k ∉ keys.patchedNames patch,
      Fields.get? (keys.patched item patch) k = Fields.get? item k := fun item k hk => by
    rw [keys.get?_patched hpatch, if_neg hk]
  have hnext : (keys.patched prev patch).SameOn (keys.patchedNames patch)
      (keys.patched prev' patch) := fun k hk => by
    rw [keys.get?_patched hpatch, keys.get?_patched hpatch, if_pos hk, if_pos hk]
  unfold between
  rw [Change.betweenItems_eq_of_sameOn hchanges (hkeep prev) (hkeep prev') hsame hnext hnested]
  simp only [bind, Except.bind, hempty, Bool.false_eq_true, if_false]

/-- A patch that can be carried out at all carries out the changes between the rows. -/
theorem exists_of_update {next item item' : Item} (h : between prev next = .ok change)
    (hupdate : Item.update change.attributes change.expression item = .ok item') :
    ∃ changes, Change.betweenItems prev next = .ok changes ∧
      Item.update change.attributes change.expression = fun row =>
        UpdateAction.applyAll row (Change.actionsIn .set changes ++ Change.actionsIn .remove changes ++
          Change.actionsIn .add changes) := by
  obtain ⟨changes, hchanges, -, rfl⟩ := exists_of_between h
  obtain ⟨actions, hparse, -⟩ := exists_of_bind_eq_ok hupdate
  have hreadable := readable_of_parse (Change.rooted_of_betweenItems hchanges) hparse
  refine ⟨changes, hchanges, funext fun row => ?_⟩
  unfold Item.update
  rw [parse_ofChanges hreadable]
  rfl

/-- Carrying out the patch between two rows changes only attributes in which they differ, and depends
on these only. -/
theorem confined_update {next : Item} (hkeep : ∀ k ∉ names, Fields.get? next k = Fields.get? prev k)
    (h : between prev next = .ok change) {item item' : Item}
    (hupdate : Item.update change.attributes change.expression item = .ok item') :
    Confined names (Item.update change.attributes change.expression) := by
  obtain ⟨changes, hchanges, heq⟩ := exists_of_update h hupdate
  obtain ⟨-, found, hflat, hfound⟩ := Change.exists_of_betweenItems hchanges hkeep
  have hworks : ∀ action ∈ Change.actionsIn .set changes ++ Change.actionsIn .remove changes ++
      Change.actionsIn .add changes, action.WorksOn names := by
    intro action haction
    obtain ⟨c, hc, rfl⟩ := Change.exists_of_mem_actionsIn haction
    obtain ⟨k, hk, hck⟩ := List.mem_flatMap.mp (hflat ▸ hc)
    obtain ⟨hk, hin⟩ := List.mem_filter.mp hk
    have hin : k ∈ names := by simpa using hin
    obtain ⟨rest, hpath⟩ := Change.path_of_mem_between (hfound k hk hin) c hck
    exact ⟨k, hin, rest, c.path_action.trans hpath⟩
  exact heq ▸ UpdateAction.confined_applyAll hworks

/-- Carrying out the patch that puts attributes over a row changes these attributes only, and depends on
them only. -/
theorem confined_update_patched (hpatch : (Fields.names patch).Nodup)
    (h : between prev (keys.patched prev patch) = .ok change) {item next : Item}
    (hupdate : Item.update change.attributes change.expression item = .ok next) :
    Confined (keys.patchedNames patch) (Item.update change.attributes change.expression) :=
  confined_update (fun k hk => by rw [keys.get?_patched hpatch, if_neg hk]) h hupdate

end Patch

end KeyedQuery
