import KeyedQuery.Proofs.Patch.Locality

/-!
# Attributes under patches

A patch between two rows leaves an attribute alone in which they do not differ, whatever row it is
carried out on (`Patch.get?_update`). If the second row has a value for an attribute, a row that has
one, too, is left with a value (`Patch.isMissing_update`). It need not be the value of the second row:
the difference of two numbers may be added to a third.
-/

namespace KeyedQuery

variable {k : String} {item next : Item}

namespace Value

theorem isNull_of_setAt?_eq_some {v x u : Value} {segment : Segment} {rest : Path}
    (h : setAt? v (segment :: rest) x = some u) : u.isNull = false := by
  unfold setAt? at h
  split at h
  · obtain rfl := Option.some.inj h
    rfl
  · obtain rfl := Option.some.inj h
    rfl
  · obtain ⟨w, -, rfl⟩ := Option.map_eq_some_iff.mp h
    rfl
  · obtain ⟨y, -, h⟩ := Option.bind_eq_some_iff.mp h
    obtain ⟨w, -, rfl⟩ := Option.map_eq_some_iff.mp h
    rfl
  · cases h

@[simp]
theorem isNull_removeAt (path : Path) (v : Value) : (removeAt path v).isNull = v.isNull := by
  unfold removeAt
  split
  · rfl
  · rfl
  · rfl
  · split <;> rfl
  · rfl

end Value

namespace UpdateAction

/-- The action neither drops an attribute nor puts null in its place. -/
def Spares (k : String) : UpdateAction → Prop
  | .set path v => path = [.key k] → v.isNull = false
  | .remove path => path ≠ [.key k]
  | .add _ _ => True

theorem spares_of_path_ne {action : UpdateAction} (h : action.path ≠ [.key k]) : action.Spares k := by
  cases action with
  | set path v => exact fun hpath => absurd hpath h
  | remove path => exact h
  | add path amount => trivial

theorem isMissing_placed {rest : Path} {v : Value} {place place' : Option Value}
    (hv : rest = [] → v.isNull = false) (h : placed rest v place = .ok place') :
    Value.isMissing place' = false := by
  unfold placed at h
  split at h
  · obtain rfl := Except.ok.inj h
    exact hv rfl
  · split at h
    · rename_i u hset
      obtain rfl := Except.ok.inj h
      exact Value.isNull_of_setAt?_eq_some hset
    · cases h

theorem isMissing_applied {rest : Path} {action : UpdateAction} {place place' : Option Value}
    (hpath : action.path = .key k :: rest) (hspares : action.Spares k)
    (hplace : Value.isMissing place = false) (h : applied rest place action = .ok place') :
    Value.isMissing place' = false := by
  cases action with
  | set path v =>
    refine isMissing_placed (fun hrest => hspares ?_) h
    rw [← hrest]
    exact hpath
  | remove path =>
    obtain rfl := Except.ok.inj h
    exact hplace
  | add path amount =>
    cases amount with
    | num n =>
      unfold applied at h
      dsimp only at h
      split at h
      · rename_i v hsum
        refine isMissing_placed (fun _ => ?_) h
        unfold Change.sum? at hsum
        obtain ⟨sum, -, rfl⟩ := Option.map_eq_some_iff.mp hsum
        rfl
      · cases h
    | _ => cases h

/-- An assignment or an addition that spares an attribute leaves it a value. -/
theorem isMissing_apply {action : UpdateAction}
    (hrooted : ∃ key rest, action.path = .key key :: rest) (hspares : action.Spares k)
    (hitem : Value.isMissing (Fields.get? item k) = false) (h : apply item action = .ok next) :
    Value.isMissing (Fields.get? next k) = false := by
  obtain ⟨key, rest, hpath⟩ := hrooted
  cases hremoval : removal? action with
  | some path =>
    cases action with
    | remove path => exact Except.ok.inj h ▸ hitem
    | set path v => cases hremoval
    | add path amount => cases hremoval
  | none =>
    rw [apply_key item hpath hremoval] at h
    obtain ⟨place, hplace, rfl⟩ := exists_of_map_eq_ok h
    rw [Fields.get?_put]
    split
    · rename_i heq
      subst heq
      exact isMissing_applied hpath hspares hitem hplace
    · exact hitem

/-- A removal that spares an attribute leaves it a value. -/
theorem isMissing_removeIn {key : String} {rest : Path} (hspares : .key key :: rest ≠ [Segment.key k])
    (hitem : Value.isMissing (Fields.get? item k) = false) :
    Value.isMissing (Fields.get? (removeIn item (.key key :: rest)) k) = false := by
  rw [removeIn_key, Fields.get?_put]
  split
  · rename_i heq
    subst heq
    cases rest with
    | nil => exact absurd rfl hspares
    | cons segment rest =>
      cases hget : Fields.get? item key with
      | none =>
        rw [hget] at hitem
        cases hitem
      | some v =>
        rw [hget] at hitem
        exact (Value.isNull_removeAt _ v).trans hitem
  · exact hitem

/-- Actions that spare an attribute leave it a value. -/
theorem isMissing_applyAll {actions : List UpdateAction}
    (hrooted : ∀ action ∈ actions, ∃ key rest, action.path = .key key :: rest)
    (hspares : ∀ action ∈ actions, action.Spares k)
    (hitem : Value.isMissing (Fields.get? item k) = false) (h : applyAll item actions = .ok next) :
    Value.isMissing (Fields.get? next k) = false := by
  obtain ⟨middle, hfold, h⟩ := exists_of_bind_eq_ok h
  obtain rfl := Except.ok.inj h
  have hmiddle : ∀ (done : List UpdateAction) (row : Item), (∀ action ∈ done, action ∈ actions) →
      Value.isMissing (Fields.get? row k) = false → done.foldlM apply row = .ok middle →
      Value.isMissing (Fields.get? middle k) = false := by
    intro done
    induction done with
    | nil => exact fun row _ hrow h => Except.ok.inj h ▸ hrow
    | cons action rest ih =>
      intro row hsub hrow h
      rw [List.foldlM_cons] at h
      obtain ⟨after, happly, h⟩ := exists_of_bind_eq_ok h
      have haction := hsub action List.mem_cons_self
      exact ih after (fun a ha => hsub a (List.mem_cons_of_mem action ha))
        (isMissing_apply (hrooted action haction) (hspares action haction) hrow happly) h
  unfold removeAll
  refine List.foldlRecOn (motive := fun row => Value.isMissing (Fields.get? row k) = false) _ _
    (hmiddle actions item (fun _ h => h) hitem hfold) fun row hrow path hmem => ?_
  obtain ⟨action, haction, hremoval⟩ := List.mem_filterMap.mp ((stableSort_perm _ _).mem_iff.mp hmem)
  obtain ⟨key, rest, hpath⟩ := hrooted action haction
  have hspare := hspares action haction
  cases action with
  | remove p =>
    obtain rfl := Option.some.inj hremoval
    obtain rfl : p = .key key :: rest := hpath
    exact isMissing_removeIn hspare hrow
  | set _ _ => cases hremoval
  | add _ _ => cases hremoval

end UpdateAction

/-- The changes that lead to a value of an attribute spare it. -/
theorem Change.Arises.spares {c : Change} {prev : Option Value} {v : Value}
    (h : Arises c [.key k] prev (some v)) (hv : v.isNull = false) : c.action.Spares k := by
  have hinside : ∀ {segment : Segment} {prev next : Option Value},
      Arises c ([.key k] ++ [segment]) prev next → c.action.Spares k := by
    intro segment prev next hinside
    obtain ⟨rest, hpath⟩ := hinside.path
    refine UpdateAction.spares_of_path_ne ?_
    rw [path_action, hpath]
    simp
  cases h with
  | set => exact fun _ => hv
  | add => trivial
  | field hpart => exact hinside hpart
  | element _ hpart => exact hinside hpart

namespace Patch

variable {prev : Item} {change : Patch} {row row' : Item}

/-- A patch leaves an attribute alone in which the rows do not differ. -/
theorem get?_update (h : between prev next = .ok change)
    (hkeep : Fields.get? next k = Fields.get? prev k)
    (hupdate : Item.update change.attributes change.expression row = .ok row') :
    Fields.get? row' k = Fields.get? row k := by
  have hconfined : Confined ((Change.eitherNames prev next).filter (· ≠ k))
      (Item.update change.attributes change.expression) := by
    refine confined_update (fun name hname => ?_) h hupdate
    by_cases heq : name = k
    · rw [heq, hkeep]
    · have hneither : name ∉ Change.eitherNames prev next := fun hmem =>
        hname (List.mem_filter.mpr ⟨hmem, by simpa using heq⟩)
      rw [Change.mem_eitherNames, not_or, not_not, not_not] at hneither
      rw [hneither.1, hneither.2]
  exact hconfined.others hupdate k (by simp)

/-- A patch to a row with a value for an attribute leaves other rows a value for it, too. -/
theorem isMissing_update (h : between prev next = .ok change)
    (hnext : Value.isMissing (Fields.get? next k) = false)
    (hrow : Value.isMissing (Fields.get? row k) = false)
    (hupdate : Item.update change.attributes change.expression row = .ok row') :
    Value.isMissing (Fields.get? row' k) = false := by
  obtain ⟨changes, hchanges, heq⟩ := exists_of_update h hupdate
  rw [heq] at hupdate
  have harises : ∀ action ∈ Change.actionsIn .set changes ++ Change.actionsIn .remove changes ++
      Change.actionsIn .add changes, ∃ c key rest, c.action = action ∧
        Change.Arises c [.key key] (Fields.get? prev key) (Fields.get? next key) ∧
        action.path = .key key :: rest := by
    intro action haction
    obtain ⟨c, hc, rfl⟩ := Change.exists_of_mem_actionsIn haction
    obtain ⟨key, harises⟩ := Change.arises_of_mem_betweenItems hchanges hc
    obtain ⟨rest, hpath⟩ := harises.path
    exact ⟨c, key, rest, rfl, harises, c.path_action.trans hpath⟩
  refine UpdateAction.isMissing_applyAll (fun action haction => ?_) (fun action haction => ?_) hrow
    hupdate
  · obtain ⟨_, key, rest, -, -, hpath⟩ := harises action haction
    exact ⟨key, rest, hpath⟩
  · obtain ⟨c, key, rest, rfl, harises, hpath⟩ := harises action haction
    by_cases hkey : key = k
    · subst hkey
      cases hget : Fields.get? next key with
      | none =>
        rw [hget] at hnext
        cases hnext
      | some v =>
        rw [hget] at harises hnext
        exact harises.spares hnext
    · refine UpdateAction.spares_of_path_ne ?_
      rw [hpath]
      simp [hkey]

end Patch

end KeyedQuery
