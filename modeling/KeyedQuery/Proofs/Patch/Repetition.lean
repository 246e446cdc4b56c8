import KeyedQuery.Proofs.Patch.Settled

/-!
# Patches carried out again

A patch that has been carried out once finds its assignments and removals made: carried out again, it
comes down to its additions (`Patch.update_again`). What the first time leaves is worked out along the
recursion that finds the changes. The changes lead to some row if every sum can be stored, and they are
settled there (`Change.Lands`, `Change.exists_lands`). That the sums can be stored is read off the first
time: the changes are at places apart, so each addition still finds the number that was there at the start
(`Change.fits_of_applyAll`).
-/

namespace KeyedQuery

/-! ## Paths apart -/

/-- The paths part at some step, so neither leads on from the other. -/
def Path.Apart : Path → Path → Prop
  | s :: p, t :: q => s ≠ t ∨ Apart p q
  | _, _ => False

theorem Path.Apart.symm : ∀ {p q : Path}, Apart p q → Apart q p
  | _ :: _, _ :: _, .inl h => .inl h.symm
  | _ :: _, _ :: _, .inr h => .inr h.symm

theorem Path.Apart.ne_nil {p q : Path} (h : Apart p q) : q ≠ [] := by
  rintro rfl
  cases p <;> exact h

/-- An assignment behind a name changes the field of that name. -/
theorem Value.exists_of_setAt?_key {new w : Value} {fs : Fields Value} {k : String} {q : Path}
    (h : setAt? new (.key k :: q) (.map fs) = some w) : ∃ inner,
      w = .map (Fields.insert fs k inner) ∧ (q ≠ [] → setAt? new q (fieldOrMap fs k) = some inner) := by
  cases q with
  | nil => exact ⟨new, (Option.some.inj h).symm, fun hnil => absurd rfl hnil⟩
  | cons t q =>
    obtain ⟨inner, hinner, rfl⟩ := Option.map_eq_some_iff.mp h
    exact ⟨inner, rfl, fun _ => hinner⟩

/-- An assignment behind a position keeps the elements at other ones. -/
theorem Value.exists_of_setAt?_index {new w : Value} {xs : List Value} {j : Nat} {q : Path}
    (h : setAt? new (.index j :: q) (.list xs) = some w) : ∃ ys, w = .list ys ∧
      (∀ i < xs.length, i ≠ j → ys[i]? = xs[i]?) ∧
      (q ≠ [] → ∃ y inner, xs[j]? = some y ∧ setAt? new q y = some inner ∧ ys[j]? = some inner) := by
  cases q with
  | nil =>
    refine ⟨_, (Option.some.inj h).symm, fun i hi hne => ?_, fun hnil => absurd rfl hnil⟩
    split
    · exact List.getElem?_set_ne hne.symm
    · exact List.getElem?_append_left hi
  | cons t q =>
    obtain ⟨y, hy, h⟩ := Option.bind_eq_some_iff.mp h
    obtain ⟨inner, hinner, rfl⟩ := Option.map_eq_some_iff.mp h
    have hj := (List.getElem?_eq_some_iff.mp hy).1
    exact ⟨_, rfl, fun i _ hne => List.getElem?_set_ne hne.symm,
      fun _ => ⟨y, inner, hy, hinner, List.getElem?_set_self hj⟩⟩

/-- An assignment keeps a value at a path apart. -/
theorem Value.follow?_of_setAt? {new x : Value} : ∀ {p q : Path} {u w : Value}, Path.Apart p q →
    follow? p u = some x → setAt? new q u = some w → follow? p w = some x
  | [], q, u, w, hapart, _, _ => by cases q <;> exact hapart.elim
  | _ :: _, [], _, _, hapart, _, _ => hapart.elim
  | s :: p, t :: q, u, w, hapart, hp, hq => by
    cases u with
    | map fs =>
      cases s with
      | index i => cases hp
      | key k =>
        obtain ⟨y, hy, hrest⟩ := Option.bind_eq_some_iff.mp hp
        cases t with
        | index j => cases q <;> cases hq
        | key l =>
          obtain ⟨inner, rfl, hinner⟩ := exists_of_setAt?_key hq
          rw [follow?, Fields.get?_insert]
          split
          · rename_i hlk
            subst hlk
            have hapart : Path.Apart p q := hapart.resolve_left (by simp)
            have hinner := hinner hapart.ne_nil
            rw [fieldOrMap, hy, Option.getD_some] at hinner
            exact follow?_of_setAt? hapart hrest hinner
          · rw [hy]
            exact hrest
    | list xs =>
      cases s with
      | key k => cases hp
      | index i =>
        obtain ⟨y, hy, hrest⟩ := Option.bind_eq_some_iff.mp hp
        cases t with
        | key l => cases q <;> cases hq
        | index j =>
          obtain ⟨ys, rfl, hothers, hsame⟩ := exists_of_setAt?_index hq
          rw [follow?]
          by_cases hij : i = j
          · subst hij
            have hapart : Path.Apart p q := hapart.resolve_left (by simp)
            obtain ⟨z, inner, hz, hinner, hys⟩ := hsame hapart.ne_nil
            obtain rfl := Option.some.inj (hy.symm.trans hz)
            rw [hys]
            exact follow?_of_setAt? hapart hrest hinner
          · rw [hothers i (List.getElem?_eq_some_iff.mp hy).1 hij, hy]
            exact hrest
    | null | bool _ | num _ | str _ => cases s <;> cases hp

namespace Change

/-! ## Sums that can be stored -/

/-- An addition finds a number, and the sum can be stored. -/
def Fits (place : Option Value) : Change → Prop
  | .add path n => ∃ m v, Value.placeAt path place = some (some (.num m)) ∧
      sum? (some (.num m)) n = some v
  | .set _ _ | .remove _ => True

theorem fits_under_key {c : Change} {k : String} {fs : Fields Value} :
    (c.under (.key k)).Fits (some (.map fs)) ↔ c.Fits (Fields.get? fs k) := by
  cases c <;> exact Iff.rfl

theorem fits_under_index {c : Change} {i : Nat} {xs : List Value} :
    (c.under (.index i)).Fits (some (.list xs)) ↔ c.Fits xs[i]? := by
  cases c <;> exact Iff.rfl

/-- An assignment or an addition keeps a value at a path apart. -/
theorem follow?_of_apply_eq_ok {c : Change} {item next : Item} {p : Path} {x : Value}
    (h : UpdateAction.apply item c.action = .ok next) (hapart : Path.Apart p c.path)
    (hp : Value.follow? p (.map item) = some x) : Value.follow? p (.map next) = some x := by
  have hset : ∀ {v : Value} {q : Path}, Path.Apart p q → UpdateAction.setIn item q v = .ok next →
      Value.follow? p (.map next) = some x := by
    intro v q hapart h
    unfold UpdateAction.setIn at h
    split at h
    · rename_i fields hfields
      obtain rfl := Except.ok.inj h
      exact Value.follow?_of_setAt? hapart hp hfields
    · cases h
  cases c with
  | set path v => exact hset hapart h
  | remove path =>
    obtain rfl := Except.ok.inj h
    exact hp
  | add path n =>
    rw [action] at h
    unfold UpdateAction.apply at h
    dsimp only at h
    split at h
    · exact hset hapart h
    · cases h

/-- If changes at places apart are carried out, the sums of the numbers that were there at the start can be
stored. -/
theorem sum?_of_foldlM {changes : List Change} {next : Item} {path : Path} {n m : Number} :
    ∀ {item : Item}, changes.Pairwise (fun c d => Path.Apart c.path d.path) →
      (changes.map action).foldlM UpdateAction.apply item = .ok next →
      Change.add path n ∈ changes → Value.follow? path (.map item) = some (.num m) →
        ∃ v, sum? (some (.num m)) n = some v := by
  induction changes with
  | nil => exact fun _ _ hmem => (nomatch hmem)
  | cons c changes ih =>
    intro item hapart h hmem hfollow
    obtain ⟨hfirst, hothers⟩ := List.pairwise_cons.mp hapart
    rw [List.map_cons, List.foldlM_cons] at h
    obtain ⟨middle, happly, hrest⟩ := exists_of_bind_eq_ok h
    rcases List.mem_cons.mp hmem with rfl | hmem
    · rw [action] at happly
      unfold UpdateAction.apply at happly
      dsimp only at happly
      rw [numberAt_eq, hfollow] at happly
      split at happly
      · rename_i sum hsum
        refine ⟨.num (Number.ofBinary64 sum), ?_⟩
        rw [sum?, hsum, Option.map_some]
      · cases happly
    · exact ih hothers hrest hmem
        (follow?_of_apply_eq_ok happly (hfirst _ hmem).symm hfollow)

theorem perm_sections (changes : List Change) :
    (inSection .set changes ++ inSection .remove changes ++ inSection .add changes).Perm changes := by
  induction changes with
  | nil => exact .nil
  | cons c changes ih =>
    cases c with
    | set path v => exact ih.cons _
    | remove path =>
      refine List.Perm.trans ?_ (ih.cons _)
      simp only [inSection, place, List.filter_cons, List.append_assoc]
      exact List.perm_middle
    | add path n => exact List.perm_middle.trans (ih.cons _)

/-- Changes at places apart whose actions are carried out on a row have sums that can be stored, if the
additions find numbers there. -/
theorem fits_of_applyAll {changes : List Change} {item next : Item}
    (hapart : changes.Pairwise fun c d => Path.Apart c.path d.path)
    (hfinds : ∀ c ∈ changes, c.place = .add → c.Settled (some (.map item)))
    (h : UpdateAction.applyAll item (actionsIn .set changes ++ actionsIn .remove changes ++
      actionsIn .add changes) = .ok next) : ∀ c ∈ changes, c.Fits (some (.map item)) := by
  intro c hc
  cases c with
  | set path v => trivial
  | remove path => trivial
  | add path n =>
    obtain ⟨m, hm⟩ := hfinds _ hc rfl
    have hsymm : ∀ {c d : Change}, Path.Apart c.path d.path → Path.Apart d.path c.path :=
      Path.Apart.symm
    obtain ⟨middle, hfold, -⟩ := exists_of_bind_eq_ok h
    rw [actionsIn, actionsIn, actionsIn, ← List.map_append, ← List.map_append] at hfold
    obtain ⟨v, hv⟩ := sum?_of_foldlM (((perm_sections changes).pairwise_iff hsymm).mpr hapart) hfold
      ((perm_sections changes).mem_iff.mpr hc) (Value.follow?_of_placeAt hm)
    exact ⟨m, v, hm, hv⟩

/-! ## Where changes land -/

/-- The changes are at places apart, and the additions among them find numbers. If the sums can be stored,
the changes lead to a place where they are settled, and which is empty exactly if the second one is. -/
structure Lands (changes : List Change) (prev next : Option Value) : Prop where
  apart : changes.Pairwise fun c d => Path.Apart c.path d.path
  finds : ∀ c ∈ changes, c.place = .add → c.Settled prev
  exists_leads : (∀ c ∈ changes, c.Fits prev) → ∃ mid, Leads changes prev mid ∧
    (∀ c ∈ changes, c.Settled mid) ∧ (mid = none ↔ next = none) ∧ ∀ v, mid = some v → v.IsOrdered

theorem lands_nil {v : Value} (w : Value) (hv : v.IsOrdered) : Lands [] (some v) (some w) where
  apart := .nil
  finds c hc := (nomatch hc)
  exists_leads _ := ⟨some v, leads_nil _, fun c hc => (nomatch hc), by simp,
    fun u hu => Option.some.inj hu ▸ hv⟩

theorem lands_set (prev : Option Value) {w : Value} (hw : w.IsOrdered) :
    Lands [.set [] w] prev (some w) where
  apart := List.pairwise_singleton _ _
  finds c hc hadd := by
    obtain rfl := List.mem_singleton.mp hc
    cases hadd
  exists_leads _ := by
    refine ⟨some w, leads_set prev w, fun c hc => ?_, by simp, fun u hu => Option.some.inj hu ▸ hw⟩
    obtain rfl := List.mem_singleton.mp hc
    rfl

theorem lands_remove (v : Value) : Lands [.remove []] (some v) none where
  apart := List.pairwise_singleton _ _
  finds c hc hadd := by
    obtain rfl := List.mem_singleton.mp hc
    cases hadd
  exists_leads _ := by
    refine ⟨none, leads_remove v, fun c hc => ?_, by simp, fun u hu => (nomatch hu)⟩
    obtain rfl := List.mem_singleton.mp hc
    rfl

theorem lands_add (a n : Number) (w : Value) : Lands [.add [] n] (some (.num a)) (some w) where
  apart := List.pairwise_singleton _ _
  finds c hc _ := by
    obtain rfl := List.mem_singleton.mp hc
    exact ⟨a, rfl⟩
  exists_leads hfits := by
    obtain ⟨m, v, hm, hv⟩ := hfits _ (List.mem_singleton.mpr rfl)
    obtain rfl : a = m := Value.num.inj (Option.some.inj (Option.some.inj hm))
    obtain ⟨sum, hsum⟩ : ∃ sum, v = .num sum := by
      obtain ⟨x, -, rfl⟩ := Option.map_eq_some_iff.mp hv
      exact ⟨_, rfl⟩
    refine ⟨some v, leads_add hv, fun c hc => ?_, by simp, fun u hu => ?_⟩
    · obtain rfl := List.mem_singleton.mp hc
      exact ⟨sum, congrArg (fun v => some (some v)) hsum⟩
    · exact Option.some.inj hu ▸ hsum ▸ .num sum

theorem apart_cons {s : Segment} {p q : Path} (h : Path.Apart p q) : Path.Apart (s :: p) (s :: q) :=
  .inr h

/-- Fields with given values. -/
theorem exists_fields (placeOf : String → Option Value) : ∀ names : List String,
    ∃ fs : Fields Value, fs.Ordered ∧
      ∀ key, Fields.get? fs key = if key ∈ names then placeOf key else none
  | [] => ⟨[], Fields.ordered_nil, fun key => by simp [Fields.get?_nil]⟩
  | k :: names => by
    obtain ⟨fs, ho, hget⟩ := exists_fields placeOf names
    refine ⟨fs.put k (placeOf k), ho.put k _, fun key => ?_⟩
    rw [Fields.get?_put, hget]
    by_cases hk : k = key
    · subst hk
      simp
    · simp [hk, Ne.symm hk]

/-- Differences of maps land where those of their fields do. -/
theorem lands_map {a b : Fields Value} (ha : a.Ordered) {changesOf : String → List Change}
    (h : ∀ k ∈ eitherNames a b, Lands (changesOf k) (Fields.get? a k) (Fields.get? b k)) :
    Lands (ofParts .key changesOf (eitherNames a b)) (some (.map a)) (some (.map b)) where
  apart := by
    refine pairwise_ofParts (fun s p q => apart_cons) ?_ fun k hk => (h k hk).apart
    refine (Fields.ordered_ofList (a ++ b)).nodup.imp fun hne p q => .inl fun heq => hne ?_
    exact Segment.key.inj heq
  finds c hc hadd := by
    obtain ⟨k, hk, d, hd, rfl⟩ := mem_ofParts hc
    exact settled_under_key.mpr ((h k hk).finds d hd (by rwa [place_under] at hadd))
  exists_leads hfits := by
    choose! midOf hleads hsettled hnone hordered using fun k (hk : k ∈ eitherNames a b) =>
      (h k hk).exists_leads fun d hd => fits_under_key.mp
        (hfits _ (List.mem_flatten.mpr ⟨_, List.mem_map_of_mem hk, List.mem_map_of_mem hd⟩))
    obtain ⟨mid, hmid, hget⟩ := exists_fields midOf (eitherNames a b)
    refine ⟨some (.map mid), leads_map ha hmid (pairwise_eitherNames a b) (fun k hk => ?_)
      (fun k hk => ?_), fun c hc => ?_, by simp, fun v hv => ?_⟩
    · exact ⟨(get?_eq_none_of_notMem hk).1, by rw [hget, if_neg hk]⟩
    · rw [hget, if_pos hk]
      exact hleads k hk
    · obtain ⟨k, hk, d, hd, rfl⟩ := mem_ofParts hc
      rw [settled_under_key, hget, if_pos hk]
      exact hsettled k hk d hd
    · obtain rfl := Option.some.inj hv
      refine Value.isOrdered_map_iff.mpr ⟨hmid, fun k u hu => ?_⟩
      rw [hget] at hu
      split at hu
      · rename_i hk
        exact hordered k hk u hu
      · cases hu

/-- Differences of lists land where those of their elements do. -/
theorem lands_list {a b : List Value} {changesOf : Nat → List Change}
    (h : ∀ i < max a.length b.length, Lands (changesOf i) a[i]? b[i]?) :
    Lands (ofParts .index changesOf (List.range (max a.length b.length)))
      (some (.list a)) (some (.list b)) where
  apart := by
    refine pairwise_ofParts (fun s p q => apart_cons) ?_ fun i hi =>
      (h i (List.mem_range.mp hi)).apart
    refine List.nodup_range.imp fun hne p q => .inl fun heq => hne ?_
    exact Segment.index.inj heq
  finds c hc hadd := by
    obtain ⟨i, hi, d, hd, rfl⟩ := mem_ofParts hc
    exact settled_under_index.mpr
      ((h i (List.mem_range.mp hi)).finds d hd (by rwa [place_under] at hadd))
  exists_leads hfits := by
    choose! midOf hleads hsettled hnone hordered using fun i (hi : i < max a.length b.length) =>
      (h i hi).exists_leads fun d hd => fits_under_index.mp (hfits _ (List.mem_flatten.mpr
        ⟨_, List.mem_map_of_mem (List.mem_range.mpr hi), List.mem_map_of_mem hd⟩))
    -- What is left of the longer list is as long as the second one.
    have hget : ∀ i, ((List.range b.length).map fun i => (midOf i).getD .null)[i]? =
        if i < max a.length b.length then midOf i else none := by
      intro i
      rw [List.getElem?_map]
      by_cases hib : i < b.length
      · have hi : i < max a.length b.length := by omega
        have hsome : midOf i ≠ none := fun h => by
          rw [hnone i hi, List.getElem?_eq_none_iff] at h
          omega
        obtain ⟨v, hv⟩ := Option.ne_none_iff_exists'.mp hsome
        rw [List.getElem?_range hib, if_pos hi, Option.map_some, hv, Option.getD_some]
      · rw [List.getElem?_eq_none (by simpa using hib), Option.map_none]
        split
        · rename_i hi
          exact ((hnone i hi).mpr (List.getElem?_eq_none (Nat.not_lt.mp hib))).symm
        · rfl
    generalize (List.range b.length).map (fun i => (midOf i).getD .null) = mid at hget
    refine ⟨some (.list mid), leads_list (fun i hi => ?_) (fun i hi => ?_) (fun i hi => ?_),
      fun c hc => ?_, by simp, fun v hv => ?_⟩
    · rw [hget, if_pos hi]
      exact hleads i hi
    · rw [hget, if_pos hi]
      exact (getElem?_ne_none_or hi).imp_right fun hne hmid => hne ((hnone i hi).mp hmid)
    · exact ⟨(getElem?_eq_none_of_le hi).1, by rw [hget, if_neg (Nat.not_lt.mpr hi)]⟩
    · obtain ⟨i, hi, d, hd, rfl⟩ := mem_ofParts hc
      have hi := List.mem_range.mp hi
      rw [settled_under_index, hget, if_pos hi]
      exact hsettled i hi d hd
    · obtain rfl := Option.some.inj hv
      refine Value.isOrdered_list_iff.mpr fun i u hu => ?_
      rw [hget] at hu
      split at hu
      · rename_i hi
        exact hordered i hi u hu
      · cases hu

/-- The changes that are found land. The induction is on the levels that may still be entered. -/
theorem exists_lands : ∀ {room : Nat} {path : Path} {prev next : Option Value} {found : List Change},
    between room path prev next = .ok found → (∀ v, prev = some v → v.IsOrdered) →
    (∀ w, next = some w → w.IsOrdered) → (prev ≠ none ∨ next ≠ none) →
    ∃ changes, found = changes.map (below path) ∧ Lands changes prev next
  | 0, _, _, _, _, h, _, _, _ => by cases h
  | room + 1, path, none, none, found, _, _, _, hsome => absurd hsome (by simp)
  | room + 1, path, none, some w, found, h, _, hnext, _ => by
    obtain rfl := Except.ok.inj h
    exact ⟨[.set [] w], by simp [below], lands_set none (hnext w rfl)⟩
  | room + 1, path, some v, none, found, h, _, _, _ => by
    obtain rfl := Except.ok.inj h
    exact ⟨[.remove []], by simp [below], lands_remove v⟩
  | room + 1, path, some v, some w, found, h, hprev, hnext, _ => by
    by_cases hleaf : descends v w = false
    · rw [between_leaf hleaf] at h
      split at h
      · obtain rfl := Except.ok.inj h
        exact ⟨[], rfl, lands_nil w (hprev v rfl)⟩
      · obtain rfl := Except.ok.inj h
        exact ⟨[.set [] w], by simp [below], lands_set (some v) (hnext w rfl)⟩
    · rcases descends_cases hleaf with ⟨a, b, rfl, rfl⟩ | ⟨a, b, rfl, rfl⟩ | ⟨m, n, rfl, rfl⟩
      · obtain ⟨ha, hfields⟩ := Value.isOrdered_map_iff.mp (hprev _ rfl)
        obtain ⟨-, hfields'⟩ := Value.isOrdered_map_iff.mp (hnext _ rfl)
        rw [between] at h
        obtain ⟨parts, hparts, h⟩ := exists_of_bind_eq_ok h
        obtain rfl := Except.ok.inj h
        choose! partOf hpartOf using exists_of_mapM_eq_ok hparts
        choose! changesOf hchanges hlands using fun k (hk : k ∈ eitherNames a b) =>
          exists_lands (hpartOf k hk) (hfields k) (hfields' k) (mem_eitherNames.mp hk)
        refine ⟨_, ?_, lands_map ha hlands⟩
        rw [mapM_eq_ok hpartOf] at hparts
        rw [map_below_ofParts, ← Except.ok.inj hparts, List.map_congr_left hchanges]
      · have helements := Value.isOrdered_list_iff.mp (hprev _ rfl)
        have helements' := Value.isOrdered_list_iff.mp (hnext _ rfl)
        rw [between] at h
        obtain ⟨parts, hparts, h⟩ := exists_of_bind_eq_ok h
        obtain rfl := Except.ok.inj h
        choose! partOf hpartOf using exists_of_mapM_eq_ok hparts
        choose! changesOf hchanges hlands using fun i (hi : i ∈ List.range (max a.length b.length)) =>
          exists_lands (hpartOf i hi) (helements i) (helements' i)
            (getElem?_ne_none_or (List.mem_range.mp hi))
        refine ⟨_, ?_, lands_list fun i hi => hlands i (List.mem_range.mpr hi)⟩
        rw [mapM_eq_ok hpartOf] at hparts
        rw [map_below_ofParts, ← Except.ok.inj hparts, List.map_congr_left hchanges]
      · rw [between] at h
        split at h
        · obtain rfl := Except.ok.inj h
          exact ⟨[], rfl, lands_nil _ (.num m)⟩
        · obtain ⟨k, -, h⟩ := exists_of_bind_eq_ok h
          obtain rfl := Except.ok.inj h
          exact ⟨[.add [] k], by simp [below], lands_add m k (.num n)⟩

theorem lands_of_betweenItems {prev next : Item} {changes : List Change}
    (h : betweenItems prev next = .ok changes) (hprev : prev.IsOrdered) (hnext : next.IsOrdered) :
    Lands changes (some (.map prev)) (some (.map next)) := by
  have hbetween : between (Patch.maxDepth + 1) [] (some (.map prev)) (some (.map next)) =
      .ok changes := h
  obtain ⟨found, rfl, hlands⟩ := exists_lands hbetween (fun v hv => Option.some.inj hv ▸ hprev)
    (fun w hw => Option.some.inj hw ▸ hnext) (.inl (by simp))
  rw [below_nil, List.map_id]
  exact hlands

end Change

/-! ## Repetition -/

/-- The action adds to a number. -/
def UpdateAction.isAddition : UpdateAction → Bool
  | .add _ _ => true
  | .set _ _ | .remove _ => false

theorem Change.filter_isAddition (place : UpdateAction.Section) (changes : List Change) :
    (actionsIn place changes).filter UpdateAction.isAddition =
      if place = .add then actionsIn .add changes else [] := by
  have hplace : ∀ action ∈ actionsIn place changes, action.isAddition = decide (place = .add) := by
    intro action haction
    obtain ⟨c, hc, rfl⟩ := List.mem_map.mp haction
    obtain rfl : c.place = place := by simpa using (List.mem_filter.mp hc).2
    cases c <;> rfl
  rw [List.filter_congr hplace]
  split
  · rename_i h
    subst h
    exact List.filter_eq_self.mpr fun _ _ => by simp
  · rename_i h
    exact List.filter_eq_nil_iff.mpr fun _ _ => by simp [h]

/-- A patch that is carried out again on the row that it has left comes down to its additions. -/
theorem Patch.update_again {prev next mid : Item} {change : Patch} (hprev : prev.IsOrdered)
    (hnext : next.IsOrdered) (hbetween : between prev next = .ok change)
    (hupdate : Item.update change.attributes change.expression prev = .ok mid) :
    ∃ actions, UpdateAction.parse change.attributes change.expression = .ok actions ∧
      Item.update change.attributes change.expression mid =
        UpdateAction.applyAll mid (actions.filter UpdateAction.isAddition) := by
  obtain ⟨changes, hchanges, -, rfl⟩ := exists_of_between hbetween
  have hlands := Change.lands_of_betweenItems hchanges hprev hnext
  have hrooted := Change.rooted_of_betweenItems hchanges
  have hpath : ∀ c ∈ changes, c.path ≠ [] := fun c hc => by
    obtain ⟨k, rest, hcons⟩ := hrooted c hc
    simp [hcons]
  obtain ⟨actions, hparse, happly⟩ := exists_of_bind_eq_ok hupdate
  have hactions := parse_ofChanges (readable_of_parse hrooted hparse)
  obtain rfl := Except.ok.inj (hactions.symm.trans hparse)
  obtain ⟨place, hleads, hsettled, -, hordered⟩ :=
    hlands.exists_leads (Change.fits_of_applyAll hlands.apart hlands.finds happly)
  obtain ⟨row, rfl⟩ : ∃ row : Item, place = some (.map row) := by
    obtain ⟨first, second, hset, hadd, hremove, -⟩ := hleads.runs
    have hsection : ∀ part, ∀ c ∈ Change.inSection part changes, c.path ≠ [] := fun part c hc =>
      hpath c (List.mem_of_mem_filter hc)
    obtain ⟨assigned, rfl⟩ := Change.effects_item (hsection .set) hset
    obtain ⟨added, rfl⟩ := Change.effects_item (hsection .add) hadd
    exact Change.effects_item (fun c hc => hsection .remove c (List.mem_reverse.mp hc)) hremove
  obtain rfl : row = mid :=
    Except.ok.inj ((Change.applyAll_of_leads hleads hpath).symm.trans happly)
  refine ⟨_, hparse, ?_⟩
  rw [Item.update, hparse, List.filter_append, List.filter_append, Change.filter_isAddition,
    Change.filter_isAddition, Change.filter_isAddition]
  exact Change.applyAll_of_settled (hordered _ rfl) hpath hsettled

end KeyedQuery
