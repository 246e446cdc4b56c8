import KeyedQuery.Proofs.Database.KeyReads
import KeyedQuery.Proofs.Loader.Serene

/-!
# What loads end with

In a calm store every load of a run comes to its end, whatever the tick and however many loads there
are (`Database.outcomes_runLoads`). It gets the row that a query by its key finds only if the row's own
key is the very same (`Database.runLoads_resolve_iff`): numbers that agree need not be written alike, and
a load that asks for 1.0 does not get the row that is stored under 1 (`Database.not_runLoads_resolve`).
-/

namespace KeyedQuery

namespace Loads

variable {db : Database} {m : Memory} {tick : Tick} {loads : List Load} {s : Loads Memory} {e : Event}

/-! ## Loads without ticks -/

/-- Loads without ticks and without a start register first of all, and then take their outcomes. -/
structure Gathers (s : Loads Memory) : Prop where
  actions : ∀ e ∈ s.agenda, e.action = .register ∧ e.isFirst ∨ e.action = .collect
  ordered : s.agenda.Pairwise fun a b => b.isFirst → a.isFirst

theorem pairwise_insertBy {ahead : Event → Event → Bool} (hahead : ∀ f : Event, f.isFirst → ahead f e)
    (he : e.isFirst = false) {agenda : Agenda}
    (h : agenda.Pairwise fun a b => b.isFirst → a.isFirst) :
    (agenda.insertBy ahead e).Pairwise fun a b => b.isFirst → a.isFirst := by
  induction agenda with
  | nil => exact List.pairwise_singleton _ _
  | cons f rest ih =>
    obtain ⟨hf, hrest⟩ := List.pairwise_cons.mp h
    unfold Agenda.insertBy
    split
    · refine List.pairwise_cons.mpr ⟨fun g hg hfirst => ?_, ih hrest⟩
      rcases List.mem_cons.mp ((Agenda.insertBy_perm ahead e rest).subset hg) with rfl | hold
      · rw [he] at hfirst
        cases hfirst
      · exact hf g hold hfirst
    · rename_i hnot
      have hnone : ∀ g ∈ f :: rest, ¬g.isFirst := by
        intro g hg hfirst
        refine hnot (hahead f ?_)
        rcases List.mem_cons.mp hg with rfl | hold
        · exact hfirst
        · exact hf g hold hfirst
      exact List.pairwise_cons.mpr ⟨fun g hg hfirst => absurd hfirst (hnone g hg), h⟩

/-- To give way is to go behind all events of the first turn. -/
theorem Gathers.giveWay (h : s.Gathers) (hfirst : e.isFirst) : (s.giveWay e .collect).Gathers := by
  have hearlier : ∀ f : Event, f.isFirst →
      f.isEarlier { e with turn := e.turn + 1, action := .collect } := by
    intro f hf
    simp only [Event.isFirst, Event.isEarlier, Bool.and_eq_true, Bool.or_eq_true,
      decide_eq_true_eq] at hf hfirst ⊢
    omega
  have hnot : Event.isFirst { e with turn := e.turn + 1, action := .collect } = false := by
    simp [Event.isFirst]
  constructor
  · intro f hf
    rcases List.mem_cons.mp ((s.giveWay_agenda_perm e .collect).subset hf) with rfl | hold
    · exact .inr rfl
    · exact h.actions f hold
  · unfold Loads.giveWay
    cases s.queued
    · exact pairwise_insertBy (fun f hf => Bool.or_eq_true_iff.mpr (.inl (hearlier f hf))) hnot h.ordered
    · exact pairwise_insertBy hearlier hnot h.ordered

theorem Gathers.goOn (h : s.Gathers) (hfirst : e.isFirst) : (s.goOn e .collect).Gathers where
  actions := List.forall_mem_cons.mpr ⟨.inr rfl, h.actions⟩
  ordered := List.pairwise_cons.mpr ⟨fun _ _ _ => hfirst, h.ordered⟩

theorem Gathers.perform (h : s.Gathers) {rest : Agenda} (hagenda : s.agenda = e :: rest)
    (hfirst : e.isFirst) (client : Client Memory) :
    ((s.advance e rest).perform db client .never loads e).Gathers := by
  have hrest : Gathers (s.advance e rest) :=
    ⟨fun f hf => h.actions f (hagenda ▸ List.mem_cons_of_mem e hf),
      (List.pairwise_cons.mp (hagenda ▸ h.ordered)).2⟩
  have hcollect : Gathers ((s.advance e rest).collect e) := by
    unfold Loads.collect
    split
    · exact hrest.giveWay hfirst
    · split
      · exact ⟨hrest.actions, hrest.ordered⟩
      · exact ⟨hrest.actions, hrest.ordered⟩
  unfold Loads.perform
  rcases h.actions e (hagenda ▸ List.mem_cons_self) with ⟨haction, -⟩ | haction
  · rw [haction]
    cases loads[e.load]? with
    | none => exact hrest
    | some load =>
      simp only [Loads.register]
      split
      · exact ⟨hrest.actions, hrest.ordered⟩
      · exact Gathers.goOn ⟨hrest.actions, hrest.ordered⟩ hfirst
  · rw [haction]
    cases loads[e.load]? <;> exact hcollect

theorem gathers_ofList (hstart : ∀ load ∈ loads, load.start? = none) (tick : Tick) (w : World Memory) :
    (ofList tick loads w).Gathers where
  actions := by
    intro e he
    obtain ⟨i, hi, rfl⟩ := List.mem_mapIdx.mp he
    rw [hstart _ (List.getElem_mem hi)]
    exact .inl ⟨rfl, rfl⟩
  ordered := by
    refine List.pairwise_of_forall_mem_list fun a ha b _ _ => ?_
    obtain ⟨i, hi, rfl⟩ := List.mem_mapIdx.mp ha
    rfl

/-- Once the first turn is over, all loads have registered. -/
theorem Gathers.stage_ne (h : s.Gathers) (hhead : ∀ e ∈ s.agenda.head?, e.isFirst = false) :
    ∀ e ∈ s.agenda, e.action.stage ≠ .register := by
  intro e he hstage
  rcases h.actions e he with ⟨-, hfirst⟩ | hcollect
  · obtain ⟨f, rest, hagenda⟩ := List.exists_cons_of_ne_nil (List.ne_nil_of_mem he)
    have hnot : f.isFirst = false := hhead f (by rw [hagenda]; rfl)
    have hordered := h.ordered
    rw [hagenda] at he hordered
    rcases List.mem_cons.mp he with rfl | hmem
    · rw [hnot] at hfirst
      cases hfirst
    · have hbefore := (List.pairwise_cons.mp hordered).1 e hmem hfirst
      rw [hnot] at hbefore
      cases hbefore
  · rw [hcollect] at hstage
    cases hstage

/-! ## Flushing -/

/-- A flush leaves nothing pending for its model. -/
theorem Serene.flush (h : s.Serene db m loads) (hcalm : m.IsCalm) (hlies : db.LiesIn m.tables)
    (cost : Nat) (model : String) :
    (s.flush db Memory.receive model).Serene db m loads ∧
      (s.flush db Memory.receive model).agenda = s.agenda ∧
      (s.flush db Memory.receive model).potential cost ≤ s.potential cost ∧
      ∀ batch ∈ (s.flush db Memory.receive model).loader.pendingBatches,
        batch ∈ s.loader.pendingBatches ∧ batch.model ≠ model := by
  have hstore := h.store_eq
  rw [← hstore] at hcalm hlies
  rcases flush_cases hcalm hlies model fun hpending => by
    obtain ⟨entries, hentries⟩ := Option.isSome_iff_exists.mp hpending
    exact (h.files.filed _ (Loader.mem_pendingBatches hentries)).exists_table
    with ⟨hnone, heq⟩ | ⟨world, loader, hworld, hplaces, hfetches, heq⟩
  · rw [heq]
    refine ⟨h, rfl, le_rfl, fun batch hbatch => ⟨hbatch, fun hmodel => ?_⟩⟩
    have hsome := Loader.isSome_pending hbatch
    rw [hmodel, hnone] at hsome
    cases hsome
  · rw [heq]
    refine ⟨⟨hworld.trans hstore, h.files.fetches (hstore ▸ hfetches), h.resumes, fun i hi =>
      (h.has i hi).imp_right (·.fetches h.files.ordered hfetches), h.crowd_le⟩, rfl, ?_, ?_⟩
    · exact potential_loader_le hplaces fun i => hfetches.isSome_outcome?
    · intro batch hbatch
      have hother : batch ∈ s.loader.othersPending model := hfetches.pendingBatches_eq ▸ hbatch
      exact ⟨Loader.othersPending_subset hother, Loader.model_ne_of_mem_othersPending hother⟩

theorem Serene.flushes (h : s.Serene db m loads) (hcalm : m.IsCalm) (hlies : db.LiesIn m.tables)
    (cost : Nat) (models : List String) :
    (models.foldl (Loads.flush db Memory.receive) s).Serene db m loads ∧
      (models.foldl (Loads.flush db Memory.receive) s).agenda = s.agenda ∧
      (models.foldl (Loads.flush db Memory.receive) s).potential cost ≤ s.potential cost ∧
      ∀ batch ∈ (models.foldl (Loads.flush db Memory.receive) s).loader.pendingBatches,
        batch ∈ s.loader.pendingBatches ∧ batch.model ∉ models := by
  induction models generalizing s with
  | nil => exact ⟨h, rfl, le_rfl, fun batch hbatch => ⟨hbatch, List.not_mem_nil⟩⟩
  | cons model models ih =>
    obtain ⟨hserene, hagenda, hpotential, hpending⟩ := h.flush hcalm hlies cost model
    obtain ⟨hserene', hagenda', hpotential', hpending'⟩ := ih hserene
    refine ⟨hserene', hagenda'.trans hagenda, hpotential'.trans hpotential, fun batch hbatch => ?_⟩
    obtain ⟨hmem, hmodels⟩ := hpending' batch hbatch
    obtain ⟨hmem, hmodel⟩ := hpending batch hmem
    exact ⟨hmem, List.not_mem_cons_of_ne_of_not_mem hmodel hmodels⟩

/-- Besides what was planned, the loads that are called have their outcomes to take. -/
theorem mem_or_stage_of_noted {agenda : Agenda} {called : List Nat} {turnOf : Nat → Nat}
    (hnoted : agenda.Perm (called.map (fun i => ⟨s.clock, turnOf i, i, .collect⟩) ++ s.agenda))
    {e : Event} (he : e ∈ agenda) : e ∈ s.agenda ∨ e.action.stage = .collect := by
  rcases List.mem_append.mp (hnoted.subset he) with hnew | hold
  · obtain ⟨i, -, rfl⟩ := List.mem_map.mp hnew
    exact .inr rfl
  · exact .inl hold

/-- Calling loads that wait starts nothing else. -/
theorem Serene.call (h : s.Serene db m loads) {called waiting : List Nat} {turnOf : Nat → Nat}
    {agenda : Agenda} (hwaiting : s.waiting.Perm (called ++ waiting))
    (hnoted : agenda.Perm (called.map (fun i => ⟨s.clock, turnOf i, i, .collect⟩) ++ s.agenda)) :
    ({ s with agenda, waiting } : Loads Memory).Serene db m loads where
  store_eq := h.store_eq
  files := h.files
  resumes := by
    intro e he
    rcases mem_or_stage_of_noted hnoted he with hold | hcollect
    · exact h.resumes e hold
    · exact hcollect ▸ nofun
  has := by
    refine fun i hi => (h.has i hi).imp_left fun ⟨e, he, hplans⟩ => ?_
    exact ⟨e, hnoted.symm.subset (List.mem_append_right _ he), hplans⟩
  crowd_le := by
    have hlength := hnoted.length_eq
    have hlength' := hwaiting.length_eq
    have hcrowd := h.crowd_le
    simp only [crowd, List.length_append, List.length_map] at hlength hlength' hcrowd ⊢
    omega

/-- Once all models have been flushed, all outcomes are known and nothing is pending. -/
theorem Serene.flushAll (h : s.Serene db m loads) (hcalm : m.IsCalm) (hlies : db.LiesIn m.tables)
    (cost : Nat) (hregisters : ∀ e ∈ s.agenda, e.action.stage ≠ .register) :
    (s.flushAll db Memory.receive).Serene db m loads ∧
      (s.flushAll db Memory.receive).Dispatches tick loads ∧
      (s.flushAll db Memory.receive).potential cost ≤ s.potential cost := by
  obtain ⟨hserene, hagenda, hpotential, hpending⟩ :=
    h.flushes hcalm hlies cost (Fields.names s.loader.pending)
  unfold Loads.flushAll
  generalize (Fields.names s.loader.pending).foldl (Loads.flush db Memory.receive) s = flushed at *
  have hnothing : flushed.loader.pendingBatches = [] := by
    refine List.eq_nil_iff_forall_not_mem.mpr fun batch hbatch => ?_
    obtain ⟨hmem, hmodel⟩ := hpending batch hbatch
    exact hmodel (Fields.isSome_get?_iff.mp (Loader.isSome_pending hmem))
  obtain ⟨called, waiting, agenda, hcalled, hwaiting, hnoted, heq⟩ :=
    flushed.exists_call_eq fun _ => s.turn + 1
  rw [heq]
  refine ⟨hserene.call hwaiting hnoted, ⟨fun _ e he => ?_, ?_⟩, ?_⟩
  · rcases mem_or_stage_of_noted hnoted he with hold | hcollect
    · exact hregisters e (hagenda ▸ hold)
    · exact hcollect ▸ nofun
  · show ∀ batch ∈ flushed.loader.pendingBatches, _
    rw [hnothing]
    exact nofun
  · exact (potential_call_le (s := flushed) hcalled hwaiting hnoted).trans hpotential

/-- Without ticks, all loads register before anything is flushed. -/
theorem runWhile_gathers (hcalm : m.IsCalm) (hlies : db.LiesIn m.tables) {n : Nat}
    (h : s.Serene db m loads) (hgathers : s.Gathers)
    (hleft : s.potential (2 * loads.length + 1) ≤ n) :
    ((s.runWhile db Memory.receive .never loads Event.isFirst n).Serene db m loads ∧
      (s.runWhile db Memory.receive .never loads Event.isFirst n).Gathers) ∧
      (s.runWhile db Memory.receive .never loads Event.isFirst n).potential (2 * loads.length + 1) ≤
        s.potential (2 * loads.length + 1) ∧
      ∀ e ∈ (s.runWhile db Memory.receive .never loads Event.isFirst n).agenda.head?,
        e.isFirst = false := by
  refine runWhile_spec (I := fun s => s.Serene db m loads ∧ s.Gathers)
    (fun s e rest h hagenda hfirst => ?_) n s ⟨h, hgathers⟩ hleft
  obtain ⟨-, hserene, hless⟩ := h.1.perform hcalm hlies .never hagenda
  exact ⟨⟨hserene, h.2.perform hagenda hfirst Memory.receive⟩, hless⟩

end Loads

/-- In a calm store every load of a run comes to its end. -/
theorem Database.outcomes_runLoads {db : Database} {w : World Memory} (hcalm : w.store.IsCalm)
    (hlies : db.LiesIn w.store.tables) {tick : Tick} {loads : List Load}
    (hstart : tick = .never → ∀ load ∈ loads, load.start? = none) :
    (db.runLoads Memory.receive tick loads w).outcomes =
      loads.map fun load => some (db.endOf w.store.tables load) := by
  have hserene := Loads.serene_ofList db tick loads w
  have hbound := Loads.potential_ofList_le db tick loads w
  unfold Database.runLoads
  extract_lets bound registered flushed s
  obtain ⟨hflushed, hdispatches, hleft⟩ : flushed.Serene db w.store loads ∧
      flushed.Dispatches tick loads ∧ flushed.potential (2 * loads.length + 1) ≤ bound := by
    by_cases htick : tick = .never
    · have hcase : flushed = registered.flushAll db Memory.receive := if_pos htick
      subst htick
      obtain ⟨⟨hregistered, hgathers⟩, hless, hhead⟩ := Loads.runWhile_gathers hcalm hlies hserene
        (Loads.gathers_ofList (hstart rfl) .never w) hbound
      obtain ⟨hflushed, hdispatches, hleft⟩ :=
        hregistered.flushAll hcalm hlies _ (hgathers.stage_ne hhead)
      exact hcase ▸ ⟨hflushed, hdispatches, hleft.trans (hless.trans hbound)⟩
    · have hcase : flushed = registered := if_neg htick
      obtain ⟨⟨hregistered, hdispatches⟩, hless, -⟩ := Loads.runWhile_dispatches hcalm hlies tick
        Event.isFirst hserene (Loads.dispatches_ofList loads w htick) hbound
      exact hcase ▸ ⟨hregistered, hdispatches, hless.trans hbound⟩
  refine List.ext_getElem (by simp) fun i hi hi' => ?_
  have hlength : i < loads.length := by simpa using hi'
  simpa using hflushed.run hdispatches hcalm hlies hleft (List.getElem?_eq_getElem hlength)

open Transaction in
/-- In a calm store of a schema every load of a run comes to its end. One whose key cannot be told ends
with that fault. For any other one, the row that agrees with its key is the one that a query by that key
finds; the load ends with this row, or with nothing if there is none, exactly if the row's own key is the
very same. Otherwise it ends with nothing. Without ticks, what is registered is flushed once, so there all
loads start at once. -/
theorem Database.runLoads_resolve_iff {s : Schema} (hs : s.TablesApart) {w : World Memory}
    (hstore : w.store.IsOf s) (hkeyed : w.store.WellKeyed) (hcalm : w.store.IsCalm) {db : Database}
    (hdb : db.resolver = s.resolver) {tick : Tick} {loads : List Load}
    (hstart : tick = .never → ∀ load ∈ loads, load.start? = none) :
    let outcomes := (db.runLoads Memory.receive tick loads w).outcomes
    outcomes.length = loads.length ∧
    ∀ (i : Nat) (load : Load), loads[i]? = some load →
      (∀ fault, db.loadKey load.model load.asked = .error fault →
        outcomes[i]? = some (some (.error fault))) ∧
      ∀ key, db.loadKey load.model load.asked = .ok key →
        ∃ t found, db.LiesOn load.model w.store.tables t ∧
          (∀ row, found = some row ↔ row ∈ t.items ∧ row.hasKey key = true) ∧
          (∀ (q : FindQuery) conditions, q.model = load.model → q.IsPlain →
            normalizeAll db.resolver q.model q.conditions = .ok conditions →
            FixesKey t.keys conditions → keyOfConditions q.model t.keys conditions = .ok key →
            ((db.findOne q).run.run Memory.receive w).1 = .ok found) ∧
          outcomes[i]? = some (some (.ok (found.filter fun row => t.keyOf row = key))) ∧
          (outcomes[i]? = some (some (.ok found)) ↔ ∀ row, found = some row → t.keyOf row = key) := by
  intro outcomes
  have hlies := liesIn hs hstore hkeyed hdb
  have houtcomes : outcomes = loads.map fun load => some (db.endOf w.store.tables load) :=
    outcomes_runLoads hcalm hlies hstart
  refine ⟨by rw [houtcomes, List.length_map], fun i load hload => ?_⟩
  have hend : outcomes[i]? = some (some (db.endOf w.store.tables load)) := by
    rw [houtcomes, List.getElem?_map, hload]
    rfl
  refine ⟨fun fault hfault => by rw [hend, endOf_eq_error hfault], fun key hkey => ?_⟩
  obtain ⟨table, htable⟩ := exists_table_of_loadKey hkey
  obtain ⟨t, -, ht⟩ := hlies load.model table htable
  have hisKey := (ht.of_loadKey hkey).1
  rw [ht.endOf_eq hkey] at hend
  refine ⟨t, t.find? key, ht, fun row => ht.wellKeyed.find?_eq_some_iff hisKey,
    fun q conditions hmodel hplain hconditions hfixes hfixed => ?_, hend, ?_⟩
  · have hquery := (ensures_findOne_key (hmodel ▸ ht) hstore.pageSize_ne hplain hconditions hfixes
      hfixed w (hcalm.holds True)).2
    split at hquery
    · rename_i found hrun
      rw [hrun, hquery]
    · exact absurd trivial hquery
  · rw [hend, Option.some.injEq, Option.some.injEq, Except.ok.injEq]
    exact Table.own?_eq_find?_iff

/-- Of three loads of users, two ask for the number 1, once written as an integer and once with a point,
and one asks for the number 2. -/
theorem Database.runLoads_resolve_iff_users :
    let user : ModelDef := { name := "user", table := "users", primaryKey := { partition := "id" } }
    let store := (Memory.ofSchema (.ofModels [user]) none).seed "users"
      [.map [("id", .num (.int 1)), ("name", .str "ada")]]
    let db : Database := { resolver := (Schema.ofModels [user]).resolver }
    let loads : List Load := [⟨"user", .id (.num (.int 1)), none⟩,
      ⟨"user", .id (.num (.real (Binary64.ofInt 1))), some 5⟩, ⟨"user", .id (.num (.int 2)), none⟩]
    let outcomes := (db.runLoads Memory.receive .turn loads { store }).outcomes
    outcomes.length = loads.length ∧
    ∀ (i : Nat) (load : Load), loads[i]? = some load →
      (∀ fault, db.loadKey load.model load.asked = .error fault →
        outcomes[i]? = some (some (.error fault))) ∧
      ∀ key, db.loadKey load.model load.asked = .ok key →
        ∃ t found, db.LiesOn load.model store.tables t ∧
          (∀ row, found = some row ↔ row ∈ t.items ∧ row.hasKey key = true) ∧
          (∀ (q : FindQuery) conditions, q.model = load.model → q.IsPlain →
            normalizeAll db.resolver q.model q.conditions = .ok conditions →
            Transaction.FixesKey t.keys conditions →
            Transaction.keyOfConditions q.model t.keys conditions = .ok key →
            ((db.findOne q).run.run Memory.receive { store }).1 = .ok found) ∧
          outcomes[i]? = some (some (.ok (found.filter fun row => t.keyOf row = key))) ∧
          (outcomes[i]? = some (some (.ok found)) ↔ ∀ row, found = some row → t.keyOf row = key) := by
  intro user store db loads
  have hs : (Schema.ofModels [user]).TablesApart := by
    unfold Schema.TablesApart
    decide +kernel
  have hstore : store.IsOf (.ofModels [user]) := (Memory.isOf_ofSchema _ _).seed _ _
  have hkeyed : store.WellKeyed := Memory.wellKeyed_of_forall (by decide +kernel)
  exact runLoads_resolve_iff hs (w := { store }) hstore hkeyed ⟨rfl, rfl⟩ rfl nofun

/-- The user is stored under the number 1. A load that asks for 1.0 ends with nothing, though a query for
1.0 finds the user. -/
theorem Database.not_runLoads_resolve :
    let user : ModelDef := { name := "user", table := "users", primaryKey := { partition := "id" } }
    let ada : Item := [("id", .num (.int 1)), ("name", .str "ada")]
    let store := (Memory.ofSchema (.ofModels [user]) none).seed "users" [.map ada]
    let db : Database := { resolver := (Schema.ofModels [user]).resolver }
    let one : Value := .num (.real (Binary64.ofInt 1))
    ada.hasKey [("id", one)] = true ∧
      ((db.findOne { model := "user", conditions := [⟨"id", none, one, none⟩] }).run.run
        Memory.receive { store }).1 = .ok (some ada) ∧
      (db.runLoads Memory.receive .turn [⟨"user", .id one, none⟩] { store }).outcomes =
        [some (.ok none)] := by
  decide +kernel

end KeyedQuery
