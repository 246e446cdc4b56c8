import KeyedQuery.Proofs.Patch.Settled
import KeyedQuery.Proofs.Value.Order

/-!
# Walks along paths

`Value.without` drops what is at several paths at once, each path read in the value as it was, and
`Value.bridge` puts in the maps that are missing on the way to the end of a path. A removal and such a walk
go into a value in the same way (`Value.Enters`), so several of them are taken apart by recursion on the first
segments of the paths: what happens to a field of a map is what the paths below it do
(`Value.Enters.foldl_map`), and the elements of a list that are kept get what the paths below them do
(`Value.bridgeAll_list`, and for removals from the last path to the first `Value.foldl_removeAt_list`).
-/

namespace KeyedQuery

/-! ## Paths from the last to the first -/

theorem compareText_gt_trans {a b c : String} (hab : compareText a b = .gt)
    (hbc : compareText b c = .gt) : compareText a c = .gt :=
  Std.TransCmp.gt_trans hab hbc

namespace Segment

theorem eq_of_compare_eq : ∀ {s t : Segment}, s.compare t = .eq → s = t
  | .key a, .key b, h => by
    have hcompare : Ord.compare a b = .eq := (compareText_eq a b).symm.trans h
    rw [Std.LawfulEqOrd.eq_of_compare hcompare]
  | .index i, .index j, h => by
    rw [Std.LawfulEqOrd.eq_of_compare (show Ord.compare i j = .eq from h)]

theorem compare_gt_trans : ∀ {s t u : Segment},
    s.compare t = .gt → t.compare u = .gt → s.compare u = .gt
  | .key _, .key _, .key _, hst, htu => compareText_gt_trans hst htu
  | .index _, .key _, .key _, _, _ => rfl
  | .index _, .index _, .key _, _, _ => rfl
  | .index _, .index _, .index _, hst, htu =>
    Nat.compare_eq_gt.mpr ((Nat.compare_eq_gt.mp htu).trans (Nat.compare_eq_gt.mp hst))

end Segment

namespace Path

variable {p q r : Path} {s : Segment} {paths : List Path}

/-- A path comes behind another one. -/
abbrev After (p q : Path) : Prop :=
  Path.compare p q = .gt

theorem after_cons_iff {s t : Segment} :
    After (s :: p) (t :: q) ↔ s.compare t = .gt ∨ s = t ∧ After p q := by
  unfold After
  rw [Path.compare]
  constructor
  · intro h
    cases hcompare : s.compare t with
    | lt => simp [hcompare] at h
    | gt => exact .inl rfl
    | eq => exact .inr ⟨Segment.eq_of_compare_eq hcompare, by simpa [hcompare] using h⟩
  · rintro (h | ⟨rfl, h⟩)
    · simp [h]
    · simp [Change.compare_segment_self, h]

theorem not_nil_after (p : Path) : ¬After [] p := by
  cases p <;> simp [After, Path.compare]

theorem After.trans : ∀ {p q r : Path}, After p q → After q r → After p r
  | [], q, _, hpq, _ => absurd hpq (not_nil_after q)
  | _ :: _, [], r, _, hqr => absurd hqr (not_nil_after r)
  | _ :: _, _ :: _, [], _, _ => rfl
  | _ :: _, _ :: _, _ :: _, hpq, hqr => by
    rw [after_cons_iff] at hpq hqr ⊢
    rcases hpq with hst | ⟨rfl, hpq⟩
    · rcases hqr with htu | ⟨rfl, -⟩
      · exact .inl (Segment.compare_gt_trans hst htu)
      · exact .inl hst
    · exact hqr.imp_right fun h => ⟨h.1, hpq.trans h.2⟩

theorem after_or_after : ∀ {p q : Path}, p ≠ q → After p q ∨ After q p
  | [], [], h => absurd rfl h
  | [], _ :: _, _ => .inr rfl
  | _ :: _, [], _ => .inl rfl
  | s :: p, t :: q, h => by
    rw [after_cons_iff, after_cons_iff, ← Change.compare_segment_swap s t]
    cases hcompare : s.compare t with
    | lt => exact .inr (.inl rfl)
    | gt => exact .inl (.inl rfl)
    | eq =>
      obtain rfl := Segment.eq_of_compare_eq hcompare
      exact (after_or_after fun hpq => h (congrArg _ hpq)).imp (fun h => .inr ⟨rfl, h⟩)
        fun h => .inr ⟨rfl, h⟩

/-- The removals of an update are carried out from the last path to the first. -/
theorem pairwise_after_stableSort (h : paths.Nodup) :
    (stableSort (fun p q => Path.compare p q = .gt) paths).Pairwise After := by
  refine pairwise_stableSort_of_trans (fun _ _ _ => After.trans)
    (fun p q hpq => of_decide_eq_true hpq) (h.imp fun {q p} hne hnot => ?_)
  exact (after_or_after hne).resolve_right fun hqp => of_decide_eq_false hnot hqp

/-! ## Paths that start alike -/

/-- The paths that start with a segment, from behind it. -/
def below (s : Segment) (paths : List Path) : List Path :=
  paths.filterMap fun path => if path.head? = some s then some path.tail else none

@[simp] theorem below_nil (s : Segment) : below s [] = [] :=
  rfl

theorem below_cons_self (s : Segment) (p : Path) (paths : List Path) :
    below s ((s :: p) :: paths) = p :: below s paths := by
  simp [below]

theorem below_cons_of_ne (h : p.head? ≠ some s) (paths : List Path) :
    below s (p :: paths) = below s paths := by
  simp [below, h]

theorem mem_below : p ∈ below s paths ↔ s :: p ∈ paths := by
  simp only [below, List.mem_filterMap]
  constructor
  · rintro ⟨path, hpath, h⟩
    split at h
    · rename_i hhead
      obtain rfl := Option.some.inj h
      rwa [List.cons_head?_tail hhead]
    · cases h
  · exact fun h => ⟨s :: p, h, by simp⟩

theorem below_congr {others : List Path} (h : ∀ p, p ∈ paths ↔ p ∈ others) (p : Path) :
    p ∈ below s paths ↔ p ∈ below s others := by
  rw [mem_below, mem_below, h]

theorem length_lt_of_mem_below {n : Nat} (h : ∀ p ∈ paths, p.length < n + 1) :
    ∀ p ∈ below s paths, p.length < n := fun p hp => by
  have := h (s :: p) (mem_below.mp hp)
  simp only [List.length_cons] at this
  omega

theorem pairwise_below (h : paths.Pairwise After) (s : Segment) :
    (below s paths).Pairwise After := by
  refine List.Pairwise.filterMap _ (fun p q hpq p' hp' q' hq' => ?_) h
  split at hp'
  · rename_i hp
    split at hq'
    · rename_i hq
      obtain rfl := Option.some.inj hp'
      obtain rfl := Option.some.inj hq'
      rw [← List.cons_head?_tail hp, ← List.cons_head?_tail hq, after_cons_iff] at hpq
      rcases hpq with hs | ⟨-, htail⟩
      · rw [Change.compare_segment_self] at hs
        cases hs
      · exact htail
    · cases hq'
  · cases hp'

end Path

/-! ## Removals at once -/

namespace Value

mutual

/-- A value without what is at some paths, each of them read in the whole value. A path that leads nowhere
in the value is passed over. -/
def without : List Path → Value → Value
  | _, .null => .null
  | _, .bool b => .bool b
  | _, .num n => .num n
  | _, .str s => .str s
  | paths, .list xs => .list (withoutElements paths 0 xs)
  | paths, .map fs => .map (withoutFields paths fs)
termination_by structural _ v => v

/-- The elements of a list, the first of them at the given position, without what is at some paths. -/
def withoutElements : List Path → Nat → List Value → List Value
  | _, _, [] => []
  | paths, i, x :: xs =>
    if [.index i] ∈ paths then withoutElements paths (i + 1) xs
    else without (Path.below (.index i) paths) x :: withoutElements paths (i + 1) xs
termination_by structural _ _ xs => xs

/-- The fields of a map without what is at some paths. -/
def withoutFields : List Path → List (String × Value) → List (String × Value)
  | _, [] => []
  | paths, (k, v) :: fs =>
    if [.key k] ∈ paths then withoutFields paths fs
    else (k, without (Path.below (.key k) paths) v) :: withoutFields paths fs
termination_by structural _ fs => fs

end

/-- A value with the maps that are missing on the way to the end of a path. -/
def bridge : Path → Value → Value
  | .key k :: segment :: rest, .map fs =>
    .map (Fields.insert fs k (bridge (segment :: rest) (fieldOrMap fs k)))
  | .index i :: segment :: rest, .list xs =>
    match xs[i]? with
    | some x => .list (xs.set i (bridge (segment :: rest) x))
    | none => .list xs
  | _, v => v

/-- A value with the maps that are missing on the way to the ends of some paths. -/
def bridgeAll (paths : List Path) (v : Value) : Value :=
  paths.foldl (fun v path => bridge path v) v

/-- The path leads to a map of the value that has no such field. -/
def Lacks (v : Value) (path : Path) : Prop :=
  ∃ front k fs, path = front ++ [.key k] ∧ follow? front v = some (.map fs) ∧
    Fields.get? fs k = none

variable {v : Value} {paths others : List Path}

/-! ## Fields -/

theorem get?_withoutFields (paths : List Path) (key : String) (fs : Fields Value) :
    Fields.get? (withoutFields paths fs) key = if [.key key] ∈ paths then none
      else (Fields.get? fs key).map (without (Path.below (.key key) paths)) := by
  induction fs with
  | nil => simp [withoutFields]
  | cons field fs ih =>
    obtain ⟨k, v⟩ := field
    rw [withoutFields, Fields.get?_cons]
    by_cases hkey : k = key
    · subst hkey
      split
      · rename_i hmem
        rw [ih, if_pos hmem]
      · rw [Fields.get?_cons, if_pos rfl, if_pos rfl, Option.map_some]
    · rw [if_neg hkey]
      split
      · exact ih
      · rw [Fields.get?_cons, if_neg hkey, ih]

theorem names_withoutFields (paths : List Path) (fs : Fields Value) :
    List.Sublist (Fields.names (withoutFields paths fs)) (Fields.names fs) := by
  induction fs with
  | nil => exact List.Sublist.refl _
  | cons field fs ih =>
    obtain ⟨k, v⟩ := field
    rw [withoutFields]
    split
    · exact ih.cons k
    · exact ih.cons_cons k

theorem ordered_withoutFields {fs : Fields Value} (h : fs.Ordered) (paths : List Path) :
    Fields.Ordered (withoutFields paths fs) :=
  h.sublist (names_withoutFields paths fs)

/-- A step along a path works on a map by what it does to the place of the field at which the path starts,
and goes on with the element of a list at which the path starts. -/
structure Enters (f : Path → Value → Value) (place : Path → Option Value → Option Value) : Prop where
  nil : ∀ v, f [] v = v
  key : ∀ {fs : Fields Value}, fs.Ordered → ∀ k rest,
    f (.key k :: rest) (.map fs) = .map (fs.put k (place rest (Fields.get? fs k)))
  index : ∀ (fs : Fields Value) i rest, f (.index i :: rest) (.map fs) = .map fs
  some : ∀ {path : Path}, path ≠ [] → ∀ x, place path x = .some (f path (x.getD (.map [])))
  name : ∀ (xs : List Value) k rest, f (.key k :: rest) (.list xs) = .list xs
  element : ∀ {xs : List Value} {i : Nat} {x : Value} {rest : Path}, rest ≠ [] → xs[i]? = .some x →
    f (.index i :: rest) (.list xs) = .list (xs.set i (f rest x))
  beyond : ∀ {xs : List Value} {i : Nat} rest, xs.length ≤ i → f (.index i :: rest) (.list xs) = .list xs

theorem enters_removeAt : Enters removeAt UpdateAction.removed where
  nil v := by simp [removeAt]
  key _ k rest := by cases rest <;> rfl
  index fs i rest := by cases rest <;> rfl
  some {path} h x := by
    cases path with
    | nil => exact absurd rfl h
    | cons segment rest => rfl
  name xs k rest := by cases rest <;> rfl
  element {xs i x rest} h hx := by
    cases rest with
    | nil => exact absurd rfl h
    | cons segment rest => rw [removeAt, hx]; simp
  beyond {xs i} rest h := by
    cases rest with
    | nil => rw [removeAt, List.eraseIdx_of_length_le h]
    | cons segment rest => rw [removeAt, List.getElem?_eq_none h]; simp

/-- What a walk leaves in the place of the field at which its path starts. -/
def bridged (rest : Path) (place : Option Value) : Option Value :=
  if rest = [] then place else some (bridge rest (place.getD (.map [])))

theorem enters_bridge : Enters bridge bridged where
  nil v := by simp [bridge]
  key h k rest := by
    cases rest with
    | nil =>
      rw [bridged, if_pos rfl, h.put_get?]
      rfl
    | cons segment rest =>
      rw [bridged, if_neg (by simp)]
      rfl
  index fs i rest := by cases rest <;> rfl
  some h x := if_neg h
  name xs k rest := by cases rest <;> rfl
  element {xs i x rest} h hx := by
    cases rest with
    | nil => exact absurd rfl h
    | cons segment rest => rw [bridge, hx]
  beyond {xs i} rest h := by
    cases rest with
    | nil => rfl
    | cons segment rest => rw [bridge, List.getElem?_eq_none h]

namespace Enters

variable {f : Path → Value → Value} {place : Path → Option Value → Option Value}

/-- What several steps make of a map, field by field. -/
theorem foldl_map (h : Enters f place) : ∀ (paths : List Path) {fs : Fields Value}, fs.Ordered →
    ∃ next : Fields Value, paths.foldl (fun v path => f path v) (.map fs) = .map next ∧
      next.Ordered ∧ ∀ k, Fields.get? next k =
        (Path.below (.key k) paths).foldl (fun x path => place path x) (Fields.get? fs k)
  | [], fs, ho => ⟨fs, rfl, ho, fun _ => rfl⟩
  | [] :: paths, fs, ho => by
    obtain ⟨next, hnext, ho', hget⟩ := h.foldl_map paths ho
    refine ⟨next, by rw [List.foldl_cons, h.nil, hnext], ho', fun k => ?_⟩
    rw [hget, Path.below_cons_of_ne (by simp)]
  | (.index i :: rest) :: paths, fs, ho => by
    obtain ⟨next, hnext, ho', hget⟩ := h.foldl_map paths ho
    refine ⟨next, by rw [List.foldl_cons, h.index, hnext], ho', fun k => ?_⟩
    rw [hget, Path.below_cons_of_ne (by simp)]
  | (.key key :: rest) :: paths, fs, ho => by
    obtain ⟨next, hnext, ho', hget⟩ := h.foldl_map paths (ho.put key (place rest (Fields.get? fs key)))
    refine ⟨next, by rw [List.foldl_cons, h.key ho, hnext], ho', fun k => ?_⟩
    rw [hget, Fields.get?_put]
    split
    · rename_i hkey
      rw [← hkey, Path.below_cons_self, List.foldl_cons]
    · rename_i hkey
      rw [Path.below_cons_of_ne (by simpa using hkey)]

/-- Steps below a place, none of which is about the place itself. -/
theorem foldl_place (h : Enters f place) : ∀ {paths : List Path}, [] ∉ paths → paths ≠ [] →
    ∀ x, paths.foldl (fun x path => place path x) x =
      .some (paths.foldl (fun v path => f path v) (x.getD (.map [])))
  | [path], hnil, _, x => by
    rw [List.foldl_cons, h.some (by rintro rfl; simp at hnil)]
    rfl
  | path :: path' :: paths, hnil, _, x => by
    have hpath : path ≠ [] := fun h => hnil (h ▸ List.mem_cons_self)
    rw [List.foldl_cons, h.some hpath,
      foldl_place h (fun hmem => hnil (List.mem_cons_of_mem _ hmem)) (by simp), List.foldl_cons]
    rfl

end Enters

/-- If the place itself is among what is removed there, nothing is left: its removal comes last. -/
theorem foldl_removed_of_nil_mem : ∀ {paths : List Path}, paths.Pairwise Path.After → [] ∈ paths →
    ∀ x, paths.foldl (fun x path => UpdateAction.removed path x) x = none
  | [] :: paths, h, _, x => by
    cases paths with
    | nil => rfl
    | cons path paths => exact absurd ((List.pairwise_cons.mp h).1 path (by simp)) (Path.not_nil_after path)
  | (segment :: path) :: paths, h, hmem, x =>
    foldl_removed_of_nil_mem (List.pairwise_cons.mp h).2 (by simpa using hmem) _

/-! ## Elements -/

/-- The elements that are kept, each after a change. -/
def survivors : (Nat → Bool) → (Nat → Value → Value) → List Value → List Value
  | _, _, [] => []
  | dropped, change, x :: xs =>
    if dropped 0 then survivors (fun i => dropped (i + 1)) (fun i => change (i + 1)) xs
    else change 0 x :: survivors (fun i => dropped (i + 1)) (fun i => change (i + 1)) xs

theorem withoutElements_eq (paths : List Path) : ∀ (xs : List Value) (i : Nat),
    withoutElements paths i xs = survivors (fun j => [.index (i + j)] ∈ paths)
      (fun j => without (Path.below (.index (i + j)) paths)) xs
  | [], _ => rfl
  | x :: xs, i => by
    have ih := withoutElements_eq paths xs (i + 1)
    simp only [Nat.add_right_comm i 1, Nat.add_assoc i] at ih
    rw [withoutElements, survivors, ih]
    simp

theorem survivors_congr : ∀ (dropped dropped' : Nat → Bool) (change change' : Nat → Value → Value)
    {xs : List Value}, (∀ i, i < xs.length → dropped i = dropped' i) →
    (∀ i x, xs[i]? = some x → dropped i = false → change i x = change' i x) →
    survivors dropped change xs = survivors dropped' change' xs
  | _, _, _, _, [], _, _ => rfl
  | dropped, dropped', change, change', x :: xs, hdropped, hchange => by
    have ih : survivors (fun i => dropped (i + 1)) (fun i => change (i + 1)) xs =
        survivors (fun i => dropped' (i + 1)) (fun i => change' (i + 1)) xs :=
      survivors_congr _ _ _ _ (fun i hi => hdropped (i + 1) (by simpa using hi))
        fun i y hy => hchange (i + 1) y (by simpa using hy)
    rw [survivors, survivors, ← hdropped 0 (by simp), ih]
    split
    · rfl
    · rename_i h
      rw [hchange 0 x rfl (by simpa using h)]

theorem survivors_self : ∀ (dropped : Nat → Bool) (change : Nat → Value → Value) {xs : List Value},
    (∀ i, dropped i = false) → (∀ i x, xs[i]? = some x → change i x = x) →
    survivors dropped change xs = xs
  | _, _, [], _, _ => rfl
  | dropped, change, x :: xs, hdropped, hchange => by
    have ih : survivors (fun i => dropped (i + 1)) (fun i => change (i + 1)) xs = xs :=
      survivors_self _ _ (fun i => hdropped (i + 1)) fun i y hy =>
        hchange (i + 1) y (by simpa using hy)
    rw [survivors, hdropped 0, hchange 0 x rfl, ih]
    simp

/-- To change an element first and all of them then is to change this one twice. -/
theorem survivors_set : ∀ (dropped : Nat → Bool) (change change' : Nat → Value → Value)
    {xs : List Value} {m : Nat} {x y : Value}, xs[m]? = some x → change m y = change' m x →
    (∀ i, i ≠ m → change i = change' i) →
    survivors dropped change (xs.set m y) = survivors dropped change' xs
  | dropped, change, change', x :: xs, 0, _, y, hx, hm, hother => by
    obtain rfl := Option.some.inj hx
    have hrest : (fun i => change (i + 1)) = fun i => change' (i + 1) :=
      funext fun i => hother (i + 1) (by omega)
    rw [List.set_cons_zero, survivors, survivors, hm, hrest]
  | dropped, change, change', x :: xs, m + 1, _, y, hx, hm, hother => by
    have ih : survivors (fun i => dropped (i + 1)) (fun i => change (i + 1)) (xs.set m y) =
        survivors (fun i => dropped (i + 1)) (fun i => change' (i + 1)) xs :=
      survivors_set _ _ _ (by simpa using hx) hm fun i hi => hother (i + 1) (by omega)
    rw [List.set_cons_succ, survivors, survivors, hother 0 (by omega), ih]

/-- To drop an element first and others of those before it then is to drop them all at once. -/
theorem survivors_eraseIdx : ∀ (dropped dropped' : Nat → Bool) (change change' : Nat → Value → Value)
    {xs : List Value} {m : Nat}, m < xs.length → dropped' m = true →
    (∀ i, i < m → dropped i = dropped' i ∧ change i = change' i) →
    (∀ i, m ≤ i → dropped i = false ∧ change i = id) →
    (∀ i, m < i → dropped' i = false ∧ change' i = id) →
    survivors dropped change (xs.eraseIdx m) = survivors dropped' change' xs
  | dropped, dropped', change, change', x :: xs, 0, _, hm, _, hafter, hafter' => by
    have hleft : survivors dropped change xs = xs :=
      survivors_self _ _ (fun i => (hafter i (by omega)).1) fun i y _ =>
        congrFun (hafter i (by omega)).2 y
    have hright : survivors (fun i => dropped' (i + 1)) (fun i => change' (i + 1)) xs = xs :=
      survivors_self _ _ (fun i => (hafter' (i + 1) (by omega)).1) fun i y _ =>
        congrFun (hafter' (i + 1) (by omega)).2 y
    rw [List.eraseIdx_cons_zero, survivors, hm, if_pos rfl, hleft, hright]
  | dropped, dropped', change, change', x :: xs, m + 1, hlt, hm, hbefore, hafter, hafter' => by
    have ih : survivors (fun i => dropped (i + 1)) (fun i => change (i + 1)) (xs.eraseIdx m) =
        survivors (fun i => dropped' (i + 1)) (fun i => change' (i + 1)) xs :=
      survivors_eraseIdx _ _ _ _ (by simpa using hlt) hm (fun i hi => hbefore (i + 1) (by omega))
        (fun i hi => hafter (i + 1) (by omega)) fun i hi => hafter' (i + 1) (by omega)
    rw [List.eraseIdx_cons_succ, survivors, survivors, (hbefore 0 (by omega)).1,
      (hbefore 0 (by omega)).2, ih]

theorem survivors_survivors : ∀ (dropped : Nat → Bool) (change first : Nat → Value → Value)
    (xs : List Value), survivors dropped change (survivors (fun _ => false) first xs) =
      survivors dropped (fun i x => change i (first i x)) xs
  | _, _, _, [] => rfl
  | dropped, change, first, x :: xs => by
    have ih := survivors_survivors (fun i => dropped (i + 1)) (fun i => change (i + 1))
      (fun i => first (i + 1)) xs
    rw [survivors, if_neg (by simp), survivors, survivors, ih]

/-- The same elements are kept on both sides, so these have to be the same. -/
theorem survivors_inj : ∀ (dropped : Nat → Bool) (change change' : Nat → Value → Value)
    (xs : List Value), survivors dropped change xs = survivors dropped change' xs ↔
      ∀ i x, xs[i]? = some x → dropped i = false → change i x = change' i x
  | _, _, _, [] => by simp [survivors]
  | dropped, change, change', x :: xs => by
    have ih := survivors_inj (fun i => dropped (i + 1)) (fun i => change (i + 1))
      (fun i => change' (i + 1)) xs
    rw [survivors, survivors]
    constructor
    · intro h i y hy hi
      cases i with
      | zero =>
        obtain rfl : x = y := by simpa using hy
        rw [if_neg (by simp [hi]), if_neg (by simp [hi])] at h
        exact (List.cons.inj h).1
      | succ i =>
        refine ih.mp ?_ i y (by simpa using hy) hi
        split at h
        · exact h
        · exact (List.cons.inj h).2
    · intro h
      rw [ih.mpr fun i y hy hi => h (i + 1) y (by simpa using hy) hi]
      split
      · rfl
      · rename_i hzero
        rw [h 0 x rfl (by simpa using hzero)]

/-- A step that does not drop an element, in front of steps that are known element by element. -/
theorem Enters.foldl_list_cons {f : Path → Value → Value} {place : Path → Option Value → Option Value}
    (h : Enters f place) {paths : List Path} (dropped : Nat → Bool)
    (hpaths : ∀ xs, paths.foldl (fun v path => f path v) (.list xs) = .list (survivors dropped
      (fun i x => (Path.below (.index i) paths).foldl (fun v path => f path v) x) xs))
    {path : Path} (hpath : ∀ i, path ≠ [.index i]) (xs : List Value) :
    (path :: paths).foldl (fun v path => f path v) (.list xs) = .list (survivors dropped
      (fun i x => (Path.below (.index i) (path :: paths)).foldl (fun v path => f path v) x) xs) := by
  rw [List.foldl_cons]
  match path with
  | [] =>
    rw [h.nil, hpaths]
    simp only [Path.below_cons_of_ne (show [].head? ≠ Option.some (Segment.index _) by simp)]
  | .key k :: rest =>
    rw [h.name, hpaths]
    simp only [Path.below_cons_of_ne
      (show (Segment.key k :: rest).head? ≠ Option.some (Segment.index _) by simp)]
  | .index m :: rest =>
    have hrest : rest ≠ [] := fun hnil => hpath m (hnil ▸ rfl)
    have hother : ∀ i, i ≠ m →
        Path.below (.index i) ((.index m :: rest) :: paths) = Path.below (.index i) paths :=
      fun i hi => Path.below_cons_of_ne (by simpa using Ne.symm hi) paths
    rcases Nat.lt_or_ge m xs.length with hm | hm
    · rw [h.element hrest (List.getElem?_eq_getElem hm), hpaths]
      refine congrArg list (survivors_set _ _ _ (List.getElem?_eq_getElem hm) ?_ fun i hi => ?_)
      · rw [Path.below_cons_self, List.foldl_cons]
      · rw [hother i hi]
    · rw [h.beyond rest hm, hpaths]
      refine congrArg list (survivors_congr _ _ _ _ (fun _ _ => rfl) fun i x hx _ => ?_)
      have hi := (List.getElem?_eq_some_iff.mp hx).1
      rw [hother i (by omega)]

theorem bridgeAll_list : ∀ (paths : List Path) (xs : List Value), bridgeAll paths (.list xs) =
    .list (survivors (fun _ => false) (fun i x => bridgeAll (Path.below (.index i) paths) x) xs)
  | [], xs => congrArg list (survivors_self _ _ (fun _ => rfl) fun _ _ _ => rfl).symm
  | path :: paths, xs => by
    by_cases hpath : ∃ m, path = [.index m]
    · obtain ⟨m, rfl⟩ := hpath
      refine (bridgeAll_list paths xs).trans
        (congrArg list (survivors_congr _ _ _ _ (fun _ _ => rfl) fun i x _ _ => ?_))
      by_cases hi : i = m
      · subst hi
        rw [Path.below_cons_self, bridgeAll, bridgeAll, List.foldl_cons, enters_bridge.nil]
      · rw [Path.below_cons_of_ne (by simpa using Ne.symm hi)]
    · exact enters_bridge.foldl_list_cons _ (bridgeAll_list paths) (not_exists.mp hpath) xs

/-- Behind the removal of an element come no removals at it or behind it. -/
theorem before_of_after {m i : Nat} (h : ∀ path ∈ paths, Path.After [.index m] path) {rest : Path}
    (hmem : .index i :: rest ∈ paths) : i < m := by
  rcases Path.after_cons_iff.mp (h _ hmem) with hcompare | ⟨-, hnil⟩
  · exact Nat.compare_eq_gt.mp hcompare
  · exact absurd hnil (Path.not_nil_after rest)

theorem below_eq_nil_of_after {m i : Nat} (h : ∀ path ∈ paths, Path.After [.index m] path)
    (hi : m ≤ i) : Path.below (.index i) paths = [] :=
  List.eq_nil_iff_forall_not_mem.mpr fun _ hmem =>
    absurd (before_of_after h (Path.mem_below.mp hmem)) (by omega)

/-- Removals from the last path to the first drop the elements of a list that they name, and carry out the
other ones in the elements that were there at first. -/
theorem foldl_removeAt_list : ∀ {paths : List Path}, paths.Pairwise Path.After → ∀ xs : List Value,
    paths.foldl (fun v path => removeAt path v) (.list xs) = .list (survivors
      (fun i => [.index i] ∈ paths)
      (fun i x => (Path.below (.index i) paths).foldl (fun v path => removeAt path v) x) xs)
  | [], _, xs => congrArg list (survivors_self _ _ (by simp) fun _ _ _ => rfl).symm
  | path :: paths, h, xs => by
    obtain ⟨hafter, hpaths⟩ := List.pairwise_cons.mp h
    have ih := foldl_removeAt_list hpaths
    by_cases hpath : ∃ m, path = [.index m]
    · obtain ⟨m, rfl⟩ := hpath
      have hnot : ∀ i, m ≤ i → [Segment.index i] ∉ paths := fun i hi hmem =>
        absurd (before_of_after hafter hmem) (by omega)
      rcases Nat.lt_or_ge m xs.length with hm | hm
      · rw [List.foldl_cons, removeAt, ih]
        refine congrArg list (survivors_eraseIdx _ _ _ _ hm (by simp) (fun i hi => ⟨?_, ?_⟩)
          (fun i hi => ⟨?_, ?_⟩) fun i hi => ⟨?_, ?_⟩)
        · simp [Nat.ne_of_lt hi]
        · rw [Path.below_cons_of_ne (by simpa using Nat.ne_of_gt hi)]
        · simpa using hnot i hi
        · rw [below_eq_nil_of_after hafter hi]
          rfl
        · simpa [Nat.ne_of_gt hi] using hnot i (Nat.le_of_lt hi)
        · rw [Path.below_cons_of_ne (by simpa using Nat.ne_of_lt hi),
            below_eq_nil_of_after hafter (Nat.le_of_lt hi)]
          rfl
      · rw [List.foldl_cons, enters_removeAt.beyond [] hm, ih]
        refine congrArg list (survivors_congr _ _ _ _ (fun i hi => ?_) fun i x hx _ => ?_)
        · simp [show i ≠ m by omega]
        · have hi := (List.getElem?_eq_some_iff.mp hx).1
          have hne : m ≠ i := by omega
          rw [Path.below_cons_of_ne (by simpa using hne)]
    · have hdropped : (fun i => decide ([Segment.index i] ∈ path :: paths)) =
          fun i => decide ([Segment.index i] ∈ paths) := funext fun i => by
        simp [Ne.symm (not_exists.mp hpath i)]
      rw [hdropped]
      exact enters_removeAt.foldl_list_cons _ ih (not_exists.mp hpath) xs

end Value

end KeyedQuery
