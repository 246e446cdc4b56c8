import KeyedQuery.Proofs.Patch.Between
import KeyedQuery.Proofs.StableSort

/-!
# Patches turn rows into others

The patch between two rows, carried out on the first, leaves the second
(`Patch.exists_between`), and two rows have no patch only if they are equal
(`Patch.between_self`).
-/

namespace KeyedQuery

namespace Change

/-! ## Carrying changes out -/

/-- The first of several changes to a row leaves a row for the others. -/
theorem exists_effect_of_effects_cons {c : Change} {changes : List Change} {item : Item}
    {place : Option Value} (hpath : c.path ≠ [])
    (h : effects (c :: changes) (some (.map item)) = some place) :
    ∃ middle : Item, effect c (some (.map item)) = some (some (.map middle)) ∧
      effects changes (some (.map middle)) = some place := by
  rw [effects_cons] at h
  obtain ⟨first, hfirst, hrest⟩ := Option.bind_eq_some_iff.mp h
  obtain ⟨middle, rfl⟩ := effect_item hpath hfirst
  exact ⟨middle, hfirst, hrest⟩

theorem effects_item {changes : List Change} (hpath : ∀ c ∈ changes, c.path ≠ []) :
    ∀ {item : Item} {place : Option Value}, effects changes (some (.map item)) = some place →
      ∃ next : Item, place = some (.map next) := by
  induction changes with
  | nil => exact fun h => ⟨_, (Option.some.inj h).symm⟩
  | cons c changes ih =>
    intro item place h
    have ⟨hc, hchanges⟩ := List.forall_mem_cons.mp hpath
    obtain ⟨middle, -, hrest⟩ := exists_effect_of_effects_cons hc h
    exact ih hchanges hrest

theorem foldlM_apply_action {changes : List Change} (hpath : ∀ c ∈ changes, c.path ≠ [])
    (hplace : ∀ c ∈ changes, c.place ≠ .remove) {next : Item} :
    ∀ {item : Item}, effects changes (some (.map item)) = some (some (.map next)) →
      (changes.map action).foldlM UpdateAction.apply item = .ok next := by
  induction changes with
  | nil =>
    intro item h
    obtain rfl : item = next := by simpa using h
    rfl
  | cons c changes ih =>
    intro item h
    have ⟨hc, hchanges⟩ := List.forall_mem_cons.mp hpath
    have ⟨hcplace, hplaces⟩ := List.forall_mem_cons.mp hplace
    obtain ⟨middle, hfirst, hrest⟩ := exists_effect_of_effects_cons hc h
    rw [List.map_cons, List.foldlM_cons, apply_action hc hcplace hfirst]
    exact ih hchanges hplaces hrest

theorem foldlM_apply_removal {changes : List Change} (hplace : ∀ c ∈ changes, c.place = .remove)
    (item : Item) : (changes.map action).foldlM UpdateAction.apply item = .ok item := by
  induction changes with
  | nil => rfl
  | cons c changes ih =>
    rw [List.map_cons, List.foldlM_cons]
    cases c with
    | remove path => exact ih fun d hd => hplace d (List.mem_cons_of_mem _ hd)
    | set path v => cases hplace _ List.mem_cons_self
    | add path n => cases hplace _ List.mem_cons_self

theorem foldl_removeIn {changes : List Change} (hpath : ∀ c ∈ changes, c.path ≠ [])
    (hplace : ∀ c ∈ changes, c.place = .remove) {next : Item} :
    ∀ {item : Item}, effects changes (some (.map item)) = some (some (.map next)) →
      (changes.map path).foldl UpdateAction.removeIn item = next := by
  induction changes with
  | nil =>
    intro item h
    simpa using h
  | cons c changes ih =>
    intro item h
    have ⟨hc, hchanges⟩ := List.forall_mem_cons.mp hpath
    have ⟨hcplace, hplaces⟩ := List.forall_mem_cons.mp hplace
    obtain ⟨middle, hfirst, hrest⟩ := exists_effect_of_effects_cons hc h
    rw [List.map_cons, List.foldl_cons, removeIn_path hc hcplace hfirst]
    exact ih hchanges hplaces hrest

/-! ## Order of removals -/

theorem compareText_swap (a b : String) : (compareText a b).swap = compareText b a := by
  unfold compareText
  rcases Std.lt_trichotomy a b with h | rfl | h
  · simp [h, String.lt_asymm h]
  · simp
  · simp [h, String.lt_asymm h]

theorem compare_segment_swap (s t : Segment) : (s.compare t).swap = t.compare s := by
  cases s with
  | key a =>
    cases t with
    | key b => exact compareText_swap a b
    | index j => rfl
  | index i =>
    cases t with
    | key b => rfl
    | index j => exact Nat.compare_swap i j

theorem compare_path_swap : ∀ p q : Path, (Path.compare p q).swap = Path.compare q p
  | [], [] => rfl
  | [], _ :: _ => rfl
  | _ :: _, [] => rfl
  | s :: p, t :: q => by
    rw [Path.compare, Path.compare, ← compare_segment_swap s t, ← compare_path_swap p q,
      Ordering.swap_then]

theorem removal?_action (c : Change) :
    c.action.removal? = if c.place = .remove then some c.path else none := by
  cases c <;> rfl

theorem filterMap_removal? (place : UpdateAction.Section) (changes : List Change) :
    (actionsIn place changes).filterMap UpdateAction.removal? =
      if place = .remove then (inSection .remove changes).map path else [] := by
  unfold actionsIn
  rw [List.filterMap_map]
  have hplace : ∀ c ∈ inSection place changes, c.place = place := fun c hc => by
    simpa using (List.mem_filter.mp hc).2
  split
  · rename_i h
    subst h
    rw [← List.filterMap_eq_map]
    refine List.filterMap_congr fun c hc => ?_
    simp [removal?_action, hplace c hc]
  · rename_i h
    refine List.filterMap_eq_nil_iff.mpr fun c hc => ?_
    simp [removal?_action, hplace c hc, h]

/-- Changes that lead from one row to another do so as the actions of an update. -/
theorem applyAll_of_leads {changes : List Change} {prev next : Item}
    (h : Leads changes (some (.map prev)) (some (.map next)))
    (hpath : ∀ c ∈ changes, c.path ≠ []) :
    UpdateAction.applyAll prev (actionsIn .set changes ++ actionsIn .remove changes ++
      actionsIn .add changes) = .ok next := by
  have hsection : ∀ place, ∀ c ∈ inSection place changes, c.path ≠ [] ∧ c.place = place :=
    fun place c hc => ⟨hpath c (List.mem_filter.mp hc).1, by simpa using (List.mem_filter.mp hc).2⟩
  obtain ⟨first, second, hset, hadd, hremove, -⟩ := h.runs
  obtain ⟨assigned, rfl⟩ := effects_item (fun c hc => (hsection .set c hc).1) hset
  obtain ⟨added, rfl⟩ := effects_item (fun c hc => (hsection .add c hc).1) hadd
  have hfold : (actionsIn .set changes ++ actionsIn .remove changes ++
      actionsIn .add changes).foldlM UpdateAction.apply prev = .ok added := by
    have hne : ∀ place, place ≠ .remove → ∀ c ∈ inSection place changes, c.place ≠ .remove :=
      fun place hplace c hc => (hsection place c hc).2.symm ▸ hplace
    rw [List.foldlM_append, List.foldlM_append]
    have hassigned := foldlM_apply_action (fun c hc => (hsection .set c hc).1)
      (hne .set (by simp)) hset
    have hadded := foldlM_apply_action (fun c hc => (hsection .add c hc).1)
      (hne .add (by simp)) hadd
    have hkept := foldlM_apply_removal (fun c hc => (hsection .remove c hc).2) assigned
    unfold actionsIn
    rw [hassigned]
    show (List.foldlM UpdateAction.apply assigned _).bind _ = _
    rw [hkept]
    exact hadded
  have hpaths : (actionsIn .set changes ++ actionsIn .remove changes ++
      actionsIn .add changes).filterMap UpdateAction.removal? =
        (inSection .remove changes).map path := by
    rw [List.filterMap_append, List.filterMap_append, filterMap_removal?, filterMap_removal?,
      filterMap_removal?]
    simp
  have hsorted : stableSort (fun p q => Path.compare p q = .gt)
      ((inSection .remove changes).map path) = ((inSection .remove changes).map path).reverse := by
    refine stableSort_eq_reverse (List.pairwise_map.mpr (h.ascending.imp fun hcd => ?_))
    rw [← compare_path_swap, hcd]
    rfl
  unfold UpdateAction.applyAll
  rw [hfold, hpaths]
  show Except.ok (UpdateAction.removeAll added _) = _
  rw [UpdateAction.removeAll, hsorted, ← List.map_reverse]
  refine congrArg Except.ok (foldl_removeIn (fun c hc => ?_) (fun c hc => ?_) hremove)
  · exact (hsection .remove c (List.mem_reverse.mp hc)).1
  · exact (hsection .remove c (List.mem_reverse.mp hc)).2

end Change

namespace Patch

open Change

/-! ## Patches -/

/-- The patch between two rows is written from changes to fields that turn one into the other. -/
theorem between_eq_ofChanges {prev next : Item} (hprev : prev.Patchable) (hnext : next.Patchable) :
    ∃ changes, Turns changes (some (.map prev)) (some (.map next)) ∧
      (∀ c ∈ changes, c.Readable) ∧
      Patch.between prev next =
        if changes.isEmpty then .error .unchanged else .ok (ofChanges changes) := by
  cases hprev with
  | map ho hfields =>
    cases hnext with
    | map ho' hfields' =>
      choose! changesOf hbetween hturns using fun k (hk : k ∈ eitherNames prev next) =>
        exists_turns (fun v hv => hfields _ (Fields.mem_of_get?_eq_some hv))
          (fun w hw => hfields' _ (Fields.mem_of_get?_eq_some hw)) (mem_eitherNames.mp hk)
      have hall := turns_map ho ho' hturns
      refine ⟨_, hall, fun c hc => ?_, ?_⟩
      · obtain ⟨k, -, d, -, rfl⟩ := mem_ofParts hc
        exact ⟨k, d.path, path_under (.key k) d, hall.readable _ hc⟩
      · have hchanges : betweenItems prev next =
            .ok (ofParts .key changesOf (eitherNames prev next)) := by
          refine (between_map hbetween []).trans ?_
          rw [below_nil, List.map_id]
        rw [Patch.between, hchanges]
        rfl

/-- Equal rows have no patch. -/
theorem between_self {item : Item} (h : item.Patchable) :
    Patch.between item item = .error .unchanged := by
  obtain ⟨changes, hturns, -, hbetween⟩ := between_eq_ofChanges h h
  rw [hbetween, hturns.empty_iff.mpr rfl]
  rfl

/-- Different rows have a patch, and it turns the first into the second. -/
theorem exists_between {prev next : Item} (hprev : prev.Patchable) (hnext : next.Patchable)
    (hne : prev ≠ next) :
    ∃ patch, Patch.between prev next = .ok patch ∧
      Item.update patch.attributes patch.expression prev = .ok next := by
  obtain ⟨changes, hturns, hreadable, hbetween⟩ := between_eq_ofChanges hprev hnext
  have hchanges : changes ≠ [] := fun h => hne (by simpa using hturns.empty_iff.mp h)
  refine ⟨ofChanges changes, ?_, ?_⟩
  · rw [hbetween, if_neg (by simpa using hchanges)]
  · have hpath : ∀ c ∈ changes, c.path ≠ [] := fun c hc => by
      obtain ⟨k, rest, hcons, -⟩ := hreadable c hc
      simp [hcons]
    rw [Item.update, parse_ofChanges hreadable]
    exact applyAll_of_leads hturns.leads hpath

/-- Between two rows there is no patch exactly if they are equal, and every other two rows have one
that turns the first into the second. -/
theorem between_spec {prev next : Item} (hprev : prev.Patchable) (hnext : next.Patchable) :
    ((∃ fault, Patch.between prev next = .error fault) ↔ prev = next) ∧
      (prev ≠ next → ∃ patch, Patch.between prev next = .ok patch ∧
        Item.update patch.attributes patch.expression prev = .ok next) := by
  refine ⟨⟨fun ⟨fault, hfault⟩ => ?_, ?_⟩, exists_between hprev hnext⟩
  · by_contra hne
    obtain ⟨patch, hpatch, -⟩ := exists_between hprev hnext hne
    rw [hpatch] at hfault
    cases hfault
  · rintro rfl
    exact ⟨_, between_self hprev⟩

/-- A list that shrinks, an attribute that changes its type, and a number that grows. -/
theorem between_spec_mixed :
    ∃ patch, Patch.between
        [("a", .num (.int 1)), ("b", .list [.str "x", .null]), ("c", .map [("d", .bool true)])]
        [("a", .num (.int 3)), ("b", .list [.str "y"]), ("c", .null)] = .ok patch ∧
      Item.update patch.attributes patch.expression
        [("a", .num (.int 1)), ("b", .list [.str "x", .null]), ("c", .map [("d", .bool true)])] =
          .ok [("a", .num (.int 3)), ("b", .list [.str "y"]), ("c", .null)] := by
  refine (between_spec (.map (by decide) ?_) (.map (by decide) ?_)).2 (by decide)
  · intro field hfield
    simp only [List.mem_cons, List.not_mem_nil, or_false] at hfield
    rcases hfield with rfl | rfl | rfl
    · exact .int (by decide)
    · refine .list (by decide) fun x hx => ?_
      simp only [List.mem_cons, List.not_mem_nil, or_false] at hx
      rcases hx with rfl | rfl
      · exact .str "x"
      · exact .null
    · refine .map (by decide) fun field hfield => ?_
      obtain rfl := List.mem_singleton.mp hfield
      exact .bool true
  · intro field hfield
    simp only [List.mem_cons, List.not_mem_nil, or_false] at hfield
    rcases hfield with rfl | rfl | rfl
    · exact .int (by decide)
    · refine .list (by decide) fun x hx => ?_
      obtain rfl := List.mem_singleton.mp hx
      exact .str "y"
    · exact .null

end Patch

end KeyedQuery
