import KeyedQuery.Proofs.Expression.Grammar
import KeyedQuery.Proofs.Patch.Walks

/-!
# Removals at several paths

The removals of an update are carried out one after another, from the last path to the first. That comes to
the same as dropping what is at the paths at once (`Value.foldl_removeAt`) but for one thing: the walk to the
end of a path puts in the maps that are missing on the way, and a map that no removal drops again stays. So
nothing but the values at the paths goes exactly if each missing field from which a path goes on is removed
itself, or with something that would hold it (`Value.without_bridgeAll_eq_iff`).
-/

namespace KeyedQuery

namespace Value

variable {v : Value} {paths others : List Path}

/-! ## One after another and at once -/

mutual

theorem without_nil : ∀ v : Value, without [] v = v
  | .null => rfl
  | .bool _ => rfl
  | .num _ => rfl
  | .str _ => rfl
  | .list xs => congrArg list (withoutElements_nil 0 xs)
  | .map fs => congrArg map (withoutFields_nil fs)
termination_by structural v => v

theorem withoutElements_nil : ∀ (i : Nat) (xs : List Value), withoutElements [] i xs = xs
  | _, [] => rfl
  | i, x :: xs => by
    rw [withoutElements, if_neg (by simp), Path.below_nil, without_nil x, withoutElements_nil (i + 1) xs]
termination_by structural _ xs => xs

theorem withoutFields_nil : ∀ fs : List (String × Value), withoutFields [] fs = fs
  | [] => rfl
  | (k, v) :: fs => by
    rw [withoutFields, if_neg (by simp), Path.below_nil, without_nil v, withoutFields_nil fs]
termination_by structural fs => fs

end

theorem without_list (paths : List Path) (xs : List Value) : without paths (.list xs) =
    .list (survivors (fun i => [.index i] ∈ paths) (fun i => without (Path.below (.index i) paths)) xs) := by
  rw [without, withoutElements_eq]
  simp only [Nat.zero_add]

/-- The paths that lead to something in the value. -/
def resolved (v : Value) (paths : List Path) : List Path :=
  paths.filter fun path => (follow? path v).isSome

theorem below_resolved {s : Segment} {u : Value} (h : ∀ rest, follow? (s :: rest) v = follow? rest u)
    (paths : List Path) : Path.below s (resolved v paths) = resolved u (Path.below s paths) := by
  unfold Path.below resolved
  rw [List.filterMap_filter, List.filter_filterMap]
  refine List.filterMap_congr fun path _ => ?_
  by_cases hs : path.head? = some s
  · have hfollow := h path.tail
    rw [List.cons_head?_tail hs] at hfollow
    simp only [hs, hfollow, if_true, Option.filter_some]
  · simp [hs]

/-- Paths that lead nowhere do nothing. -/
theorem without_resolved (h : v.IsOrdered) : ∀ paths : List Path,
    without (resolved v paths) v = without paths v := by
  induction h with
  | list hxs ih =>
    rename_i xs
    intro paths
    rw [without_list, without_list]
    refine congrArg list (survivors_congr _ _ _ _ (fun i hi => ?_) fun i x hx _ => ?_)
    · simp [resolved, follow?, hi]
    · rw [below_resolved (u := x) fun rest => by rw [follow?, hx]; rfl]
      exact ih x (List.mem_of_getElem? hx) _
  | map ho hfs ih =>
    rename_i fs
    intro paths
    refine congrArg map ((ordered_withoutFields ho _).ext (ordered_withoutFields ho _) fun k => ?_)
    rw [get?_withoutFields, get?_withoutFields]
    cases hk : Fields.get? fs k with
    | none => simp
    | some u =>
      have hmem : [Segment.key k] ∈ resolved (.map fs) paths ↔ [.key k] ∈ paths := by
        simp [resolved, follow?, hk]
      rw [below_resolved (u := u) fun rest => by rw [follow?, hk]; rfl, Option.map_some,
        Option.map_some, ih (k, u) (Fields.mem_of_get?_eq_some hk)]
      simp only [hmem]
  | _ => exact fun _ => by rw [without, without]

/-- What the walks leave in the place of a field, if the field itself is not at the end of one. -/
theorem foldl_bridged (h : [] ∉ paths) (x : Option Value) :
    paths.foldl (fun x path => bridged path x) x =
      if paths = [] then x else some (bridgeAll paths (x.getD (.map []))) := by
  split
  · rename_i hpaths
    rw [hpaths]
    rfl
  · rename_i hpaths
    exact enters_bridge.foldl_place h hpaths x

/-- What the removals below the place of a field leave there. -/
theorem foldl_removed (h : paths.Pairwise Path.After) (x : Option Value) :
    paths.foldl (fun x path => UpdateAction.removed path x) x =
      if [] ∈ paths then none else if paths = [] then x
        else some (paths.foldl (fun v path => removeAt path v) (x.getD (.map []))) := by
  split
  · rename_i hnil
    exact foldl_removed_of_nil_mem h hnil x
  · rename_i hnil
    split
    · rename_i hpaths
      rw [hpaths]
      rfl
    · rename_i hpaths
      exact enters_removeAt.foldl_place hnil hpaths x

theorem isOrdered_getD {fs : Fields Value} (h : IsOrdered (.map fs)) (k : String) :
    ((Fields.get? fs k).getD (.map [])).IsOrdered := by
  cases hv : Fields.get? fs k with
  | none => exact isOrdered_map_iff.mpr ⟨Fields.ordered_nil, fun _ _ h => by cases h⟩
  | some v => exact (isOrdered_map_iff.mp h).2 k v hv

/-- A map with the maps on the way and without what is at the paths, field by field. -/
theorem without_bridgeAll_map {fs : Fields Value} (h : fs.Ordered) (paths : List Path) :
    ∃ gs : Fields Value, without paths (bridgeAll paths (.map fs)) = .map gs ∧ gs.Ordered ∧
      ∀ k, Fields.get? gs k = if [.key k] ∈ paths then none
        else if Path.below (.key k) paths = [] then Fields.get? fs k
        else some (without (Path.below (.key k) paths)
          (bridgeAll (Path.below (.key k) paths) ((Fields.get? fs k).getD (.map [])))) := by
  obtain ⟨mid, hmid, ho, hget⟩ := enters_bridge.foldl_map paths h
  refine ⟨withoutFields paths mid, by rw [bridgeAll, hmid, without], ordered_withoutFields ho paths,
    fun k => ?_⟩
  rw [get?_withoutFields, hget]
  split
  · rfl
  · rename_i hk
    rw [foldl_bridged (mt Path.mem_below.mp hk)]
    split
    · rename_i hbelow
      rw [hbelow, show without [] = id from funext without_nil, Option.map_id, id]
    · rfl

/-- Removals from the last path to the first drop the values at the paths, all of them at once, from the
value with the maps on the way. The induction is on a bound for the length of the paths. -/
theorem foldl_removeAt : ∀ (n : Nat) {paths others : List Path} {v : Value},
    (∀ p ∈ paths, p.length < n) → paths.Pairwise Path.After → (∀ p, p ∈ paths ↔ p ∈ others) →
    v.IsOrdered →
    paths.foldl (fun v path => removeAt path v) v = without others (bridgeAll others v)
  | 0, paths, others, v, hn, _, hsame, _ => by
    obtain rfl : paths = [] := List.eq_nil_iff_forall_not_mem.mpr fun p hp => absurd (hn p hp) (by omega)
    obtain rfl : others = [] := List.eq_nil_iff_forall_not_mem.mpr fun p hp => by
      simpa using (hsame p).mpr hp
    exact (without_nil v).symm
  | n + 1, paths, others, v, hn, h, hsame, hv => by
    have hbelow : ∀ s {u : Value}, u.IsOrdered →
        (Path.below s paths).foldl (fun v path => removeAt path v) u =
          without (Path.below s others) (bridgeAll (Path.below s others) u) := fun s u hu =>
      foldl_removeAt n (Path.length_lt_of_mem_below hn) (Path.pairwise_below h s)
        (Path.below_congr hsame) hu
    cases v with
    | list xs =>
      rw [foldl_removeAt_list h, bridgeAll_list, without_list, survivors_survivors]
      refine congrArg list (survivors_congr _ _ _ _ (fun i _ => by simp [hsame]) fun i x hx _ => ?_)
      exact hbelow (.index i) (isOrdered_list_iff.mp hv i x hx)
    | map fs =>
      have hfs := (isOrdered_map_iff.mp hv).1
      obtain ⟨left, hleft, ho, hget⟩ := enters_removeAt.foldl_map paths hfs
      obtain ⟨right, hright, ho', hget'⟩ := without_bridgeAll_map hfs others
      rw [hleft, hright]
      refine congrArg map (ho.ext ho' fun k => ?_)
      have hnil : Path.below (.key k) paths = [] ↔ Path.below (.key k) others = [] := by
        simp only [List.eq_nil_iff_forall_not_mem, Path.below_congr hsame]
      rw [hget, hget', foldl_removed (Path.pairwise_below h _), hbelow _ (isOrdered_getD hv k)]
      simp only [Path.mem_below, hsame, hnil]
    | _ =>
      rw [List.foldl_fixed' fun p => by simp [removeAt], bridgeAll,
        List.foldl_fixed' fun p => by simp [bridge], without]

/-! ## Fields that are missing on the way -/

theorem lacks_map_iff {fs : Fields Value} {path : Path} : Lacks (.map fs) path ↔
    ∃ k rest, path = .key k :: rest ∧
      (rest = [] ∧ Fields.get? fs k = none ∨ ∃ u, Fields.get? fs k = some u ∧ u.Lacks rest) := by
  constructor
  · rintro ⟨front, key, gs, rfl, hfollow, hnone⟩
    match front with
    | [] =>
      obtain rfl := Value.map.inj (Option.some.inj hfollow)
      exact ⟨key, [], rfl, .inl ⟨rfl, hnone⟩⟩
    | .key k :: front =>
      obtain ⟨u, hu, hfollow⟩ := Option.bind_eq_some_iff.mp hfollow
      exact ⟨k, front ++ [.key key], rfl, .inr ⟨u, hu, front, key, gs, rfl, hfollow, hnone⟩⟩
    | .index i :: front => cases hfollow
  · rintro ⟨k, rest, rfl, ⟨rfl, hnone⟩ | ⟨u, hu, front, key, gs, rfl, hfollow, hnone⟩⟩
    · exact ⟨[], k, fs, rfl, rfl, hnone⟩
    · exact ⟨.key k :: front, key, gs, rfl, by rwa [follow?, hu], hnone⟩

theorem lacks_list_iff {xs : List Value} {path : Path} : Lacks (.list xs) path ↔
    ∃ i rest, path = .index i :: rest ∧ ∃ u, xs[i]? = some u ∧ u.Lacks rest := by
  constructor
  · rintro ⟨front, key, gs, rfl, hfollow, hnone⟩
    match front with
    | [] => cases hfollow
    | .key k :: front => cases hfollow
    | .index i :: front =>
      obtain ⟨u, hu, hfollow⟩ := Option.bind_eq_some_iff.mp hfollow
      exact ⟨i, front ++ [.key key], rfl, u, hu, front, key, gs, rfl, hfollow, hnone⟩
  · rintro ⟨i, rest, rfl, u, hu, front, key, gs, rfl, hfollow, hnone⟩
    exact ⟨.index i :: front, key, gs, rfl, by rwa [follow?, hu], hnone⟩

/-- No path goes into a value that is neither a map nor a list. -/
theorem not_lacks_leaf {path : Path} (hmap : ∀ fs, v ≠ .map fs) (hlist : ∀ xs, v ≠ .list xs) :
    ¬ Lacks v path := by
  rintro ⟨front, key, gs, -, hfollow, -⟩
  cases v with
  | map fs => exact hmap fs rfl
  | list xs => exact hlist xs rfl
  | _ =>
    match front with
    | [] => cases hfollow
    | .key k :: front => cases hfollow
    | .index i :: front => cases hfollow

/-- Each field that is missing on the way to the end of a path is removed itself, or with something that
would hold it. -/
def Bridgeless (paths : List Path) (v : Value) : Prop :=
  ∀ path ∈ paths, ∀ front, front <+: path → front ≠ path → v.Lacks front → ∃ p ∈ paths, p <+: front

/-- Some path, none of which is empty, is within one that starts with a segment. -/
theorem exists_prefix_cons_iff {s : Segment} {front : Path} (h : [] ∉ paths) :
    (∃ p ∈ paths, p <+: s :: front) ↔ ∃ p ∈ Path.below s paths, p <+: front := by
  constructor
  · rintro ⟨p, hp, hprefix⟩
    rcases List.prefix_cons_iff.mp hprefix with rfl | ⟨rest, rfl, hrest⟩
    · exact absurd hp h
    · exact ⟨rest, Path.mem_below.mpr hp, hrest⟩
  · rintro ⟨p, hp, hprefix⟩
    exact ⟨s :: p, Path.mem_below.mp hp, List.cons_prefix_cons.mpr ⟨rfl, hprefix⟩⟩

theorem bridgeless_map_iff {fs : Fields Value} (h : [] ∉ paths) : Bridgeless paths (.map fs) ↔
    ∀ k, [.key k] ∉ paths → Path.below (.key k) paths ≠ [] →
      ∃ u, Fields.get? fs k = some u ∧ Bridgeless (Path.below (.key k) paths) u := by
  constructor
  · intro hall k hk hbelow
    cases hget : Fields.get? fs k with
    | none =>
      obtain ⟨rest, hrest⟩ := List.exists_mem_of_ne_nil _ hbelow
      have hne : [Segment.key k] ≠ .key k :: rest := fun heq =>
        hk (heq ▸ Path.mem_below.mp hrest)
      obtain ⟨p, hp, hprefix⟩ := (exists_prefix_cons_iff h).mp <|
        hall _ (Path.mem_below.mp hrest) _ (by simp) hne (lacks_map_iff.mpr ⟨k, [], rfl, .inl ⟨rfl, hget⟩⟩)
      obtain rfl := List.prefix_nil.mp hprefix
      exact absurd (Path.mem_below.mp hp) hk
    | some u =>
      refine ⟨u, rfl, fun rest hrest front hfront hne hlacks => ?_⟩
      exact (exists_prefix_cons_iff h).mp <| hall _ (Path.mem_below.mp hrest) (.key k :: front)
        (List.cons_prefix_cons.mpr ⟨rfl, hfront⟩) (by simpa using hne)
        (lacks_map_iff.mpr ⟨k, front, rfl, .inr ⟨u, hget, hlacks⟩⟩)
  · intro hall path hpath front hfront hne hlacks
    obtain ⟨k, rest, rfl, hmissing⟩ := lacks_map_iff.mp hlacks
    obtain ⟨tail, rfl⟩ := hfront
    by_cases hk : [.key k] ∈ paths
    · exact ⟨[.key k], hk, by simp⟩
    · have hmem : rest ++ tail ∈ Path.below (.key k) paths := Path.mem_below.mpr hpath
      obtain ⟨u, hu, hall⟩ := hall k hk (List.ne_nil_of_mem hmem)
      rcases hmissing with ⟨-, hnone⟩ | ⟨u', hu', hlacks⟩
      · rw [hnone] at hu
        cases hu
      · obtain rfl := Option.some.inj (hu.symm.trans hu')
        exact (exists_prefix_cons_iff h).mpr
          (hall _ hmem rest (List.prefix_append _ _) (fun heq => hne (congrArg _ heq)) hlacks)

theorem bridgeless_list_iff {xs : List Value} (h : [] ∉ paths) : Bridgeless paths (.list xs) ↔
    ∀ i x, xs[i]? = some x → [.index i] ∉ paths → Bridgeless (Path.below (.index i) paths) x := by
  constructor
  · intro hall i x hx hi rest hrest front hfront hne hlacks
    exact (exists_prefix_cons_iff h).mp <| hall _ (Path.mem_below.mp hrest) (.index i :: front)
      (List.cons_prefix_cons.mpr ⟨rfl, hfront⟩) (by simpa using hne)
      (lacks_list_iff.mpr ⟨i, front, rfl, x, hx, hlacks⟩)
  · intro hall path hpath front hfront hne hlacks
    obtain ⟨i, rest, rfl, x, hx, hmissing⟩ := lacks_list_iff.mp hlacks
    obtain ⟨tail, rfl⟩ := hfront
    by_cases hi : [.index i] ∈ paths
    · exact ⟨[.index i], hi, by simp⟩
    · exact (exists_prefix_cons_iff h).mpr <| hall i x hx hi _ (Path.mem_below.mpr hpath) rest
        (List.prefix_append _ _) (fun heq => hne (congrArg _ heq)) hmissing

/-- The maps on the way are dropped again, and nothing but the values at the paths with them, exactly if each
field that is missing there is removed. -/
theorem without_bridgeAll_eq_iff (n : Nat) (hn : ∀ p ∈ paths, p.length < n) (h : [] ∉ paths)
    (hv : v.IsOrdered) : without paths (bridgeAll paths v) = without paths v ↔ Bridgeless paths v := by
  induction n generalizing paths v with
  | zero =>
    obtain rfl : paths = [] := List.eq_nil_iff_forall_not_mem.mpr fun p hp => absurd (hn p hp) (by omega)
    exact iff_of_true rfl fun path hpath => absurd hpath List.not_mem_nil
  | succ n ih =>
    have hbelow : ∀ {s u}, [s] ∉ paths → u.IsOrdered →
        (without (Path.below s paths) (bridgeAll (Path.below s paths) u) =
          without (Path.below s paths) u ↔ Bridgeless (Path.below s paths) u) := fun {_ _} hs hu =>
      ih (Path.length_lt_of_mem_below hn) (mt Path.mem_below.mp hs) hu
    cases v with
    | list xs =>
      rw [bridgeAll_list, without_list, without_list, survivors_survivors, list.injEq, survivors_inj,
        bridgeless_list_iff h]
      refine forall_congr' fun i => forall_congr' fun x => forall_congr' fun hx => ?_
      rw [decide_eq_false_iff_not]
      exact forall_congr' fun hi => hbelow hi (isOrdered_list_iff.mp hv i x hx)
    | map fs =>
      have hfs := (isOrdered_map_iff.mp hv).1
      obtain ⟨gs, hgs, ho, hget⟩ := without_bridgeAll_map hfs paths
      have hext : gs = withoutFields paths fs ↔
          ∀ k, Fields.get? gs k = Fields.get? (withoutFields paths fs) k :=
        ⟨fun heq k => by rw [heq], ho.ext (ordered_withoutFields hfs paths)⟩
      rw [hgs, without, map.injEq, hext, bridgeless_map_iff h]
      refine forall_congr' fun k => ?_
      rw [hget, get?_withoutFields]
      by_cases hk : [.key k] ∈ paths
      · simp [hk]
      · rw [if_neg hk, if_neg hk]
        by_cases hnil : Path.below (.key k) paths = []
        · simp [hnil, show without [] = id from funext without_nil]
        · rw [if_neg hnil]
          cases hu : Fields.get? fs k with
          | none => simp [hk, hnil]
          | some u =>
            simpa [hk, hnil] using hbelow hk ((isOrdered_map_iff.mp hv).2 k u hu)
    | _ =>
      rw [bridgeAll, List.foldl_fixed' fun p => by simp [bridge]]
      exact iff_of_true rfl fun path _ front _ _ hlacks =>
        absurd hlacks (not_lacks_leaf (by simp) (by simp))

end Value

/-! ## Updates -/

namespace UpdateAction

/-- An action that is read works on an attribute or on something in it. -/
theorem exists_path_of_parseActions {a : Attributes} : ∀ {bound : Nat} {place : Option Section}
    {tokens : List Token} {actions : List UpdateAction},
    parseActions a bound place tokens = .ok actions →
    ∀ action ∈ actions, ∃ k rest, action.path = .key k :: rest
  | _, _, [], actions, h => by
    obtain rfl : actions = [] := by simpa [parseActions] using h.symm
    simp
  | 0, _, _ :: _, _, h => by simp [parseActions] at h
  | bound + 1, place, t :: ts, actions, h => by
    unfold parseActions at h
    split at h
    · exact exists_path_of_parseActions h
    · obtain ⟨⟨path, rest⟩, hpath, h⟩ := exists_of_bind_eq_ok h
      obtain ⟨⟨action, rest'⟩, haction, h⟩ := exists_of_bind_eq_ok h
      obtain ⟨more, hmore, h⟩ := exists_of_bind_eq_ok h
      obtain rfl := Except.ok.inj h
      obtain ⟨us, -, hus⟩ := Expression.exists_of_parsePath_eq_ok hpath
      have hself : action.path = path := by
        cases place with
        | none => cases haction
        | some place =>
          cases place with
          | set =>
            obtain ⟨_, _, haction⟩ := exists_of_bind_eq_ok haction
            obtain ⟨_, _, haction⟩ := exists_of_bind_eq_ok haction
            cases haction
            rfl
          | remove =>
            cases haction
            rfl
          | add =>
            obtain ⟨_, _, haction⟩ := exists_of_bind_eq_ok haction
            cases haction
            rfl
      intro action' hmem
      rcases List.mem_cons.mp hmem with rfl | hmem
      · obtain ⟨_, _⟩ := hus
        exact ⟨_, _, hself⟩
      · exact exists_path_of_parseActions hmore action' hmem

theorem nil_notMem_of_parse {a : Attributes} {text : String} {paths : List Path}
    (h : parse a text = .ok (paths.map .remove)) : [] ∉ paths := by
  obtain ⟨tokens, -, h⟩ := exists_of_bind_eq_ok h
  intro hmem
  obtain ⟨k, rest, hpath⟩ := exists_path_of_parseActions h _ (List.mem_map_of_mem hmem)
  cases hpath

theorem map_removeIn (item : Item) (path : Path) :
    .map (removeIn item path) = Value.removeAt path (.map item) := by
  match path with
  | [] => rfl
  | .key k :: rest => cases rest <;> rfl
  | .index i :: rest => cases rest <;> rfl

theorem map_foldl_removeIn : ∀ (paths : List Path) (item : Item), .map (paths.foldl removeIn item) =
    paths.foldl (fun v path => Value.removeAt path v) (.map item)
  | [], _ => rfl
  | path :: paths, item => by
    rw [List.foldl_cons, List.foldl_cons, map_foldl_removeIn paths, map_removeIn]

/-- Removals leave the row without the values at their paths, after the maps on the way have been put in. -/
theorem map_removeAll {paths : List Path} {item : Item} (hdistinct : paths.Nodup)
    (hitem : item.IsOrdered) : .map (removeAll item paths) =
      Value.without paths (Value.bridgeAll paths (.map item)) := by
  have hmem : ∀ p, p ∈ stableSort (fun p q => Path.compare p q = .gt) paths ↔ p ∈ paths := fun p =>
    (stableSort_perm _ paths).mem_iff
  obtain ⟨n, hn⟩ : ∃ n, ∀ p ∈ paths, p.length < n :=
    ⟨(paths.map List.length).sum + 1, fun p hp =>
      Nat.lt_succ_of_le (List.single_le_sum (by simp) _ (List.mem_map_of_mem hp))⟩
  rw [removeAll, map_foldl_removeIn]
  exact Value.foldl_removeAt n (fun p hp => hn p ((hmem p).mp hp))
    (Path.pairwise_after_stableSort hdistinct) hmem hitem

theorem applyAll_removals (item : Item) (paths : List Path) :
    applyAll item (paths.map .remove) = .ok (removeAll item paths) := by
  have hfold : ∀ ps : List Path, (ps.map UpdateAction.remove).foldlM apply item = .ok item := by
    intro ps
    induction ps with
    | nil => rfl
    | cons p ps ih => exact ih
  have hpaths : (paths.map UpdateAction.remove).filterMap removal? = paths := by
    rw [List.filterMap_map, show removal? ∘ UpdateAction.remove = some from rfl, List.filterMap_some]
  rw [applyAll, hfold, hpaths]
  rfl

end UpdateAction

/-- Removals at different paths drop the values at them and nothing else, each path read in the row as it was,
from the row with the maps on the way to them; and that is the row without these values exactly if each field
that is missing on the way is removed itself, or with something that would hold it. -/
theorem Item.update_removals_iff {a : Attributes} {text : String} {paths : List Path} {item : Item}
    (hparse : UpdateAction.parse a text = .ok (paths.map .remove)) (hdistinct : paths.Nodup)
    (hitem : item.IsOrdered) :
    (Item.update a text item).map Value.map =
        .ok (Value.without paths (Value.bridgeAll paths (.map item))) ∧
      ((Item.update a text item).map Value.map = .ok (Value.without paths (.map item)) ↔
        Value.Bridgeless paths (.map item)) := by
  have hupdate : (Item.update a text item).map Value.map =
      .ok (Value.without paths (Value.bridgeAll paths (.map item))) := by
    rw [Item.update, hparse]
    show (UpdateAction.applyAll item (paths.map .remove)).map Value.map = _
    rw [UpdateAction.applyAll_removals, ← UpdateAction.map_removeAll hdistinct hitem]
    rfl
  obtain ⟨n, hn⟩ : ∃ n, ∀ p ∈ paths, p.length < n :=
    ⟨(paths.map List.length).sum + 1, fun p hp =>
      Nat.lt_succ_of_le (List.single_le_sum (by simp) _ (List.mem_map_of_mem hp))⟩
  refine ⟨hupdate, ?_⟩
  rw [hupdate, Except.ok.injEq]
  exact Value.without_bridgeAll_eq_iff n hn (UpdateAction.nil_notMem_of_parse hparse) hitem

/-- Elements are removed by the positions that they have at first, and a map together with a field of it. -/
theorem Item.update_removals_iff_tags :
    let a : Attributes := ⟨[("#f0", "tags"), ("#f1", "a"), ("#f2", "b")], []⟩
    let text := "REMOVE #f0[0], #f1, #f0[1].#f2, #f1.#f2, #f0[2]"
    let paths : List Path := [[.key "tags", .index 0], [.key "a"], [.key "tags", .index 1, .key "b"],
      [.key "a", .key "b"], [.key "tags", .index 2]]
    let item : Item := [("tags", .list [.null, .map [("b", .null), ("c", .null)], .null, .str "x"])]
    UpdateAction.parse a text = .ok (paths.map .remove) ∧ paths.Nodup ∧ item.IsOrdered ∧
      (Item.update a text item).map Value.map =
        .ok (.map [("tags", .list [.map [("c", .null)], .str "x"])]) ∧
      Value.Bridgeless paths (.map item) := by
  intro a text paths item
  have hparse : UpdateAction.parse a text = .ok (paths.map .remove) := by decide +kernel
  have hdistinct : paths.Nodup := by decide
  have hmap : Value.IsOrdered (.map [("b", .null), ("c", .null)]) :=
    .map (by decide) (by simp [Value.IsOrdered.null])
  have hitem : item.IsOrdered :=
    .map (by decide) (by
      simpa [item] using Value.IsOrdered.list (by simp [hmap, Value.IsOrdered.null, Value.IsOrdered.str]))
  obtain ⟨hupdate, hiff⟩ := Item.update_removals_iff hparse hdistinct hitem
  have hwithout : Value.without paths (Value.bridgeAll paths (.map item)) =
      .map [("tags", .list [.map [("c", .null)], .str "x"])] := by decide +kernel
  rw [hwithout] at hupdate
  exact ⟨hparse, hdistinct, hitem, hupdate, hiff.mp (hupdate.trans (by decide +kernel))⟩

/-- A path in a map that is missing leads nowhere, but its removal puts the map in. -/
theorem Item.not_update_removals :
    let a : Attributes := ⟨[("#f0", "a"), ("#f1", "b")], []⟩
    let paths : List Path := [[.key "a", .key "b"]]
    let item : Item := [("id", .num (.int 1))]
    UpdateAction.parse a "REMOVE #f0.#f1" = .ok (paths.map .remove) ∧ paths.Nodup ∧ item.IsOrdered ∧
      Value.without paths (.map item) = .map item ∧
      Item.update a "REMOVE #f0.#f1" item = .ok [("a", .map []), ("id", .num (.int 1))] := by
  intro a paths item
  have hitem : item.IsOrdered := .map (by decide) (by simp [item, Value.IsOrdered.num])
  exact ⟨by decide +kernel, by decide, hitem, by decide +kernel, by decide +kernel⟩

end KeyedQuery
