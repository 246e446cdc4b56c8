import KeyedQuery.Proofs.Loader.Filing

/-!
# Runs in a calm store

`Loads.Serene` keeps track of every load while the store is calm: it is still to register, or its batch
is pending, or its outcome is known. If whatever is pending is going to be dispatched
(`Loads.Dispatches`), nothing can be pending at the end, so every outcome is known then
(`Loads.Serene.run`).
-/

namespace KeyedQuery

namespace Loads

variable {σ : Type} {db : Database} {m : Memory} {tables : Fields Table} {tick : Tick}
  {loads : List Load} {s next : Loads Memory} {e : Event}

/-- A load is going to come to a stage once its waits are over. -/
def Plans (s : Loads σ) (i : Nat) (stage : LoadStage) : Prop :=
  ∃ e ∈ s.agenda, e.load = i ∧ e.action.stage = stage

/-- The store is calm and stays as it is, and no load is lost. -/
structure Serene (db : Database) (m : Memory) (loads : List Load) (s : Loads Memory) : Prop where
  store_eq : s.world.store = m
  files : s.loader.Files db m.tables loads
  resumes : ∀ e ∈ s.agenda, e.action.stage ≠ .resume
  has : ∀ i < loads.length, s.Plans i .register ∨ s.loader.Has i
  crowd_le : s.crowd ≤ loads.length

/-- What is pending is going to be dispatched. -/
structure Dispatches (tick : Tick) (loads : List Load) (s : Loads Memory) : Prop where
  registers : tick = .never → ∀ e ∈ s.agenda, e.action.stage ≠ .register
  plans : ∀ batch ∈ s.loader.pendingBatches, ∃ i load, loads[i]? = some load ∧
    load.model = batch.model ∧ s.Plans i .dispatch

/-! ## Single events -/

namespace Happens

/-- Nothing else that is planned is given up. -/
theorem subset (h : Happens db tables tick loads s e next) : s.agenda ⊆ next.agenda := by
  cases h with
  | nothing => exact List.Subset.refl _
  | giveWay hplaces hagenda => exact fun f hf => hagenda.symm.subset (List.mem_cons_of_mem _ hf)
  | sleep hplaces haction htime hagenda =>
    exact fun f hf => hagenda.symm.subset (List.mem_cons_of_mem _ hf)
  | wake => exact List.subset_cons_self _ _
  | refuse => exact List.Subset.refl _
  | register haction hload hkey hagenda =>
    exact fun f hf => hagenda.symm.subset (List.mem_cons_of_mem _ hf)
  | dispatch => exact List.subset_cons_self _ _
  | fetch haction hload hfetches hstore hplaces hcalled hwaiting hagenda =>
    exact fun f hf => hagenda.symm.subset (List.mem_cons_of_mem _ (List.mem_append_right _ hf))
  | collect => exact List.Subset.refl _
  | await => exact List.Subset.refl _

theorem plans (h : Happens db tables tick loads s e next) {i : Nat} {stage : LoadStage}
    (hplans : s.Plans i stage) : next.Plans i stage := by
  obtain ⟨f, hf, hrest⟩ := hplans
  exact ⟨f, h.subset hf, hrest⟩

/-- What is newly planned is what was to happen, or what follows on a registration. -/
theorem stage_cases (h : Happens db tables tick loads s e next) {f : Event} (hf : f ∈ next.agenda) :
    f ∈ s.agenda ∨ f.action.stage = e.action.stage ∨ f.action.stage = .dispatch ∨
      f.action.stage = .collect := by
  cases h with
  | nothing => exact .inl hf
  | giveWay hplaces hagenda =>
    exact (List.mem_cons.mp (hagenda.subset hf)).symm.imp_right (.inl <| congrArg (·.action.stage) ·)
  | sleep hplaces haction htime hagenda =>
    exact (List.mem_cons.mp (hagenda.subset hf)).symm.imp_right (.inl <| congrArg (·.action.stage) ·)
  | wake hplaces haction htime =>
    refine (List.mem_cons.mp hf).symm.imp_right fun heq => .inl ?_
    rw [heq, haction]
    rfl
  | refuse => exact .inl hf
  | register haction hload hkey hagenda =>
    refine (List.mem_cons.mp (hagenda.subset hf)).symm.imp_right fun heq => .inr ?_
    rw [heq]
    cases tick with
    | turn => exact .inl rfl
    | after ms => exact .inl rfl
    | never => exact .inr rfl
  | dispatch =>
    exact (List.mem_cons.mp hf).symm.imp_right (.inr <| .inr <| congrArg (·.action.stage) ·)
  | fetch haction hload hfetches hstore hplaces hcalled hwaiting hagenda =>
    rcases List.mem_cons.mp (hagenda.subset hf) with rfl | hf
    · exact .inr (.inr (.inr rfl))
    · rcases List.mem_append.mp hf with hcollect | hf
      · obtain ⟨i, -, rfl⟩ := List.mem_map.mp hcollect
        exact .inr (.inr (.inr rfl))
      · exact .inl hf
  | collect => exact .inl hf
  | await => exact .inl hf

theorem stage_ne (h : Happens db tables tick loads s e next) {stage : LoadStage}
    (hdispatch : stage ≠ .dispatch) (hcollect : stage ≠ .collect)
    (hbefore : ∀ f ∈ (s.goOn e e.action).agenda, f.action.stage ≠ stage) :
    ∀ f ∈ next.agenda, f.action.stage ≠ stage := by
  intro f hf
  rcases h.stage_cases hf with hold | hstage | hstage | hstage
  · exact hbefore f (List.mem_cons_of_mem _ hold)
  · exact hstage ▸ hbefore _ List.mem_cons_self
  · exact hstage ▸ hdispatch.symm
  · exact hstage ▸ hcollect.symm

/-- What was to happen is still to happen, or it has happened: a load that was to register is not lost,
and for a model that was to be dispatched nothing is pending. -/
theorem own_cases (h : Happens db tables tick loads s e next) (ho : s.loader.pending.Ordered) :
    next.Plans e.load e.action.stage ∨
      e.action = .register ∧ (e.load < loads.length → next.loader.Has e.load) ∨
      e.action = .dispatch ∧ (∀ load, loads[e.load]? = some load →
        ∀ batch ∈ next.loader.pendingBatches, batch.model ≠ load.model) ∨
      e.action = .collect := by
  cases h with
  | nothing haction hnone =>
    rcases haction with haction | haction
    · exact .inr (.inl ⟨haction, fun hlt => absurd hnone (by simp [hlt])⟩)
    · refine .inr (.inr (.inl ⟨haction, fun load hload => ?_⟩))
      rw [hnone] at hload
      cases hload
  | giveWay hplaces hagenda => exact .inl ⟨_, hagenda.symm.subset List.mem_cons_self, rfl, rfl⟩
  | sleep hplaces haction htime hagenda =>
    exact .inl ⟨_, hagenda.symm.subset List.mem_cons_self, rfl, rfl⟩
  | wake hplaces haction htime => exact .inl ⟨_, List.mem_cons_self, rfl, haction ▸ rfl⟩
  | refuse haction => exact .inr (.inl ⟨haction, fun _ => s.loader.has_refuse e.load _⟩)
  | register haction => exact .inr (.inl ⟨haction, fun _ => s.loader.has_register ho _ _ _⟩)
  | dispatch haction hload hpending =>
    refine .inr (.inr (.inl ⟨haction, fun load hload' batch hbatch heq => ?_⟩))
    have hsome : (Fields.get? s.loader.pending batch.model).isSome := Loader.isSome_pending hbatch
    obtain rfl := Option.some.inj (hload.symm.trans hload')
    rw [heq, hpending] at hsome
    cases hsome
  | fetch haction hload hfetches =>
    refine .inr (.inr (.inl ⟨haction, fun load hload' batch hbatch => ?_⟩))
    obtain rfl := Option.some.inj (hload.symm.trans hload')
    exact Loader.model_ne_of_mem_othersPending (hfetches.pendingBatches_eq ▸ hbatch)
  | collect hplaces haction => exact .inr (.inr (.inr haction))
  | await hplaces haction => exact .inr (.inr (.inr haction))

/-- What is newly pending is going to be dispatched. -/
theorem pending_cases (h : Happens db tables tick loads s e next) (ho : s.loader.pending.Ordered)
    {batch : LoadBatch} (hbatch : batch ∈ next.loader.pendingBatches) :
    batch ∈ s.loader.pendingBatches ∨ e.action = .register ∧ ∃ load, loads[e.load]? = some load ∧
      load.model = batch.model ∧ (tick ≠ .never → next.Plans e.load .dispatch) := by
  cases h with
  | @register load key haction hload hkey agenda hagenda =>
    rcases List.mem_cons.mp ((Loader.register_pendingBatches_perm ho).subset hbatch) with
      rfl | hother
    · refine .inr ⟨haction, load, hload, rfl, fun htick => ?_⟩
      refine ⟨_, hagenda.symm.subset List.mem_cons_self, ?_⟩
      cases tick with
      | turn => exact ⟨rfl, rfl⟩
      | after ms => exact ⟨rfl, rfl⟩
      | never => exact absurd rfl htick
    · exact .inl (Loader.othersPending_subset hother)
  | fetch haction hload hfetches =>
    exact .inl (Loader.othersPending_subset (hfetches.pendingBatches_eq ▸ hbatch))
  | _ => exact .inl hbatch

theorem has (h : Happens db tables tick loads s e next) (ho : s.loader.pending.Ordered) {i : Nat}
    (hhas : s.loader.Has i) : next.loader.Has i := by
  cases h with
  | refuse => exact hhas.refuse _ _
  | register => exact hhas.register ho _ _ _
  | fetch haction hload hfetches => exact hhas.fetches ho hfetches
  | _ => exact hhas

theorem files (h : Happens db tables tick loads s e next) (hfiles : s.loader.Files db tables loads) :
    next.loader.Files db tables loads := by
  cases h with
  | refuse haction hload hkey => exact hfiles.refuse hload hkey
  | register haction hload hkey => exact hfiles.register hload hkey
  | fetch haction hload hfetches => exact hfiles.fetches hfetches
  | _ => exact hfiles

theorem store_eq (h : Happens db tables tick loads s e next) : next.world.store = s.world.store := by
  cases h with
  | fetch haction hload hfetches hstore => exact hstore
  | _ => rfl

end Happens

theorem Serene.step (h : (s.goOn e e.action).Serene db m loads)
    (hnext : Happens db m.tables tick loads s e next) : next.Serene db m loads where
  store_eq := hnext.store_eq.trans h.store_eq
  files := hnext.files h.files
  resumes := hnext.stage_ne (by decide) (by decide) h.resumes
  has := by
    intro i hi
    rcases h.has i hi with ⟨f, hf, rfl, hstage⟩ | hhas
    · rcases List.mem_cons.mp hf with rfl | hold
      · have hstage : e.action.stage = .register := hstage
        rcases hnext.own_cases h.files.ordered with hplans | ⟨-, hhas⟩ | ⟨haction, -⟩ | haction
        · exact .inl (hstage ▸ hplans)
        · exact .inr (hhas hi)
        · rw [haction] at hstage
          cases hstage
        · rw [haction] at hstage
          cases hstage
      · exact .inl (hnext.plans ⟨f, hold, rfl, hstage⟩)
    · exact .inr (hnext.has h.files.ordered hhas)
  crowd_le := by
    refine hnext.crowd_le.trans ?_
    have hbefore := h.crowd_le
    simp only [crowd, goOn, List.length_cons] at hbefore ⊢
    omega

theorem Dispatches.step (h : (s.goOn e e.action).Dispatches tick loads)
    (ho : s.loader.pending.Ordered) (hnext : Happens db tables tick loads s e next) :
    next.Dispatches tick loads where
  registers := fun htick => hnext.stage_ne (by decide) (by decide) (h.registers htick)
  plans := by
    intro batch hbatch
    rcases hnext.pending_cases ho hbatch with hold | ⟨haction, load, hload, hmodel, hplans⟩
    · obtain ⟨i, load, hload, hmodel, f, hf, rfl, hstage⟩ := h.plans batch hold
      rcases List.mem_cons.mp hf with rfl | hf
      · have hstage : e.action.stage = .dispatch := hstage
        rcases hnext.own_cases ho with hplans | ⟨haction, -⟩ | ⟨-, hgone⟩ | haction
        · exact ⟨_, load, hload, hmodel, hstage ▸ hplans⟩
        · rw [haction] at hstage
          cases hstage
        · exact absurd hmodel.symm (hgone load hload batch hbatch)
        · rw [haction] at hstage
          cases hstage
      · exact ⟨_, load, hload, hmodel, hnext.plans ⟨f, hf, rfl, hstage⟩⟩
    · refine ⟨_, load, hload, hmodel, hplans fun htick => ?_⟩
      exact h.registers htick _ List.mem_cons_self (congrArg LoadAction.stage haction)

/-- Coming to an event changes nothing of this. -/
theorem Serene.advance (h : s.Serene db m loads) {rest : Agenda} (hagenda : s.agenda = e :: rest) :
    ((s.advance e rest).goOn e e.action).Serene db m loads where
  store_eq := h.store_eq
  files := h.files
  resumes := fun f hf => h.resumes f (hagenda ▸ hf)
  has := fun i hi => (h.has i hi).imp_left fun ⟨f, hf, hplans⟩ =>
    ⟨f, (show f ∈ e :: rest from hagenda ▸ hf), hplans⟩
  crowd_le := by
    refine le_of_eq_of_le ?_ h.crowd_le
    rw [crowd, crowd, hagenda]
    rfl

theorem Dispatches.advance (h : s.Dispatches tick loads) {rest : Agenda}
    (hagenda : s.agenda = e :: rest) :
    ((s.advance e rest).goOn e e.action).Dispatches tick loads where
  registers := fun htick f hf => h.registers htick f (hagenda ▸ hf)
  plans := by
    intro batch hbatch
    obtain ⟨i, load, hload, hmodel, f, hf, hplans⟩ := h.plans batch hbatch
    exact ⟨i, load, hload, hmodel, f, (show f ∈ e :: rest from hagenda ▸ hf), hplans⟩

theorem Serene.perform (h : s.Serene db m loads) (hcalm : m.IsCalm) (hlies : db.LiesIn m.tables)
    (tick : Tick) {rest : Agenda} (hagenda : s.agenda = e :: rest) :
    Happens db m.tables tick loads (s.advance e rest) e
        ((s.advance e rest).perform db Memory.receive tick loads e) ∧
      ((s.advance e rest).perform db Memory.receive tick loads e).Serene db m loads ∧
      ((s.advance e rest).perform db Memory.receive tick loads e).potential (2 * loads.length + 1) <
        s.potential (2 * loads.length + 1) := by
  have hcome := h.advance hagenda
  have hstore : (s.advance e rest).world.store = m := h.store_eq
  have hhappens : Happens db m.tables tick loads (s.advance e rest) e
      ((s.advance e rest).perform db Memory.receive tick loads e) := by
    rw [← hstore] at hcalm hlies ⊢
    refine happens_perform hcalm hlies (fun load _ hpending => ?_)
      (hcome.resumes e List.mem_cons_self)
    obtain ⟨entries, hentries⟩ := Option.isSome_iff_exists.mp hpending
    exact (h.files.filed _ (Loader.mem_pendingBatches hentries)).exists_table
  refine ⟨hhappens, hcome.step hhappens, ?_⟩
  refine (hhappens.potential_lt rfl rfl ?_).trans_le (s.potential_advance_le hagenda)
  have hcrowd := hcome.crowd_le
  simp only [crowd, goOn, List.length_cons] at hcrowd ⊢
  omega

/-! ## Runs -/

/-- When nothing is left to happen, every load has come to its end. -/
theorem Serene.outcome?_eq (h : s.Serene db m loads) (hdispatches : s.Dispatches tick loads)
    (hagenda : s.agenda = []) {i : Nat} {load : Load} (hload : loads[i]? = some load) :
    s.loader.outcome? i = some (db.endOf m.tables load) := by
  have hnone : ∀ j stage, ¬s.Plans j stage := by
    rintro j stage ⟨e, he, -⟩
    rw [hagenda] at he
    cases he
  have hpending : s.loader.pendingBatches = [] := by
    refine List.eq_nil_iff_forall_not_mem.mpr fun batch hbatch => ?_
    obtain ⟨j, -, -, -, hplans⟩ := hdispatches.plans batch hbatch
    exact hnone j _ hplans
  have hi : i < loads.length := (List.getElem?_eq_some_iff.mp hload).1
  rcases h.has i hi with hplans | hwaits | hend
  · exact absurd hplans (hnone i _)
  · rw [hpending] at hwaits
    cases hwaits
  · obtain ⟨outcome, houtcome⟩ := Option.isSome_iff_exists.mp hend
    obtain ⟨other, hother, rfl⟩ := h.files.ends i outcome houtcome
    obtain rfl := Option.some.inj (hload.symm.trans hother)
    exact houtcome

/-- While everything pending is going to be dispatched, every event gets the loads ahead. -/
theorem runWhile_dispatches (hcalm : m.IsCalm) (hlies : db.LiesIn m.tables) (tick : Tick)
    (going : Event → Bool) {n : Nat} (h : s.Serene db m loads) (hdispatches : s.Dispatches tick loads)
    (hleft : s.potential (2 * loads.length + 1) ≤ n) :
    ((s.runWhile db Memory.receive tick loads going n).Serene db m loads ∧
      (s.runWhile db Memory.receive tick loads going n).Dispatches tick loads) ∧
      (s.runWhile db Memory.receive tick loads going n).potential (2 * loads.length + 1) ≤
        s.potential (2 * loads.length + 1) ∧
      ∀ e ∈ (s.runWhile db Memory.receive tick loads going n).agenda.head?, going e = false := by
  refine runWhile_spec (I := fun s => s.Serene db m loads ∧ s.Dispatches tick loads)
    (fun s e rest h hagenda _ => ?_) n s ⟨h, hdispatches⟩ hleft
  obtain ⟨hhappens, hserene, hless⟩ := h.1.perform hcalm hlies tick hagenda
  exact ⟨⟨hserene, (h.2.advance hagenda).step h.1.files.ordered hhappens⟩, hless⟩

/-- Such a run ends with the outcomes of all loads. -/
theorem Serene.run (h : s.Serene db m loads) (hdispatches : s.Dispatches tick loads)
    (hcalm : m.IsCalm) (hlies : db.LiesIn m.tables) {n : Nat}
    (hleft : s.potential (2 * loads.length + 1) ≤ n) {i : Nat} {load : Load}
    (hload : loads[i]? = some load) :
    (s.runWhile db Memory.receive tick loads (fun _ => true) n).loader.outcome? i =
      some (db.endOf m.tables load) := by
  obtain ⟨⟨hserene, hplanned⟩, -, hhead⟩ :=
    runWhile_dispatches hcalm hlies tick (fun _ => true) h hdispatches hleft
  refine hserene.outcome?_eq hplanned (List.head?_eq_none_iff.mp ?_) hload
  cases hagenda : (s.runWhile db Memory.receive tick loads (fun _ => true) n).agenda.head? with
  | none => rfl
  | some e => cases hhead e hagenda

/-- Loads that have not started are all going to register. -/
theorem serene_ofList (db : Database) (tick : Tick) (loads : List Load) (w : World Memory) :
    (ofList tick loads w).Serene db w.store loads where
  store_eq := rfl
  files := ⟨Fields.ordered_nil, fun _ hbatch => absurd hbatch List.not_mem_nil, nofun⟩
  resumes := by
    intro e he
    obtain ⟨i, hi, rfl⟩ := List.mem_mapIdx.mp he
    show LoadAction.stage ((loads[i].start?.map _).getD _) ≠ _
    cases loads[i].start? <;> exact nofun
  has := by
    intro i hi
    refine .inl ⟨_, List.mem_mapIdx.mpr ⟨i, hi, rfl⟩, rfl, ?_⟩
    show LoadAction.stage ((loads[i].start?.map _).getD _) = _
    cases loads[i].start? <;> rfl
  crowd_le := (List.length_mapIdx (l := loads)).le

theorem dispatches_ofList (loads : List Load) (w : World Memory) (htick : tick ≠ .never) :
    (ofList tick loads w).Dispatches tick loads where
  registers := fun hnever => absurd hnever htick
  plans := fun _ hbatch => absurd hbatch List.not_mem_nil

end Loads

end KeyedQuery
