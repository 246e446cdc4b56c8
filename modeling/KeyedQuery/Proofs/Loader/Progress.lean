import KeyedQuery.Proofs.Loader.Events
import Mathlib.Algebra.Order.BigOperators.Group.List

/-!
# Loads get ahead

In a calm store every event lowers what is left to do (`Loads.Happens.potential_lt`). A load that takes
a step towards its outcome has less work left. One that finds no free place has as much as before, but
it is put off to the next turn, and places are free again after at most two turns. The last place of a
turn is taken by a load that gets ahead, and the work that this saves pays for all loads that are put
off then. Loads have less left to do than a run allows for (`Loads.potential_ofList_le`), so a run ends
because nothing is left to happen (`Loads.runWhile_spec`).
-/

namespace KeyedQuery

/-- What is left to do, where each place that is needed counts as `cost`. -/
def LoadAction.work (cost : Nat) (known : Bool) : LoadAction → Nat → Nat
  | .register, _ => 2 * cost + 4
  | .dispatch, _ => cost + 2
  | .resume _ _, _ => cost + 2
  | .collect, _ => cost + if known then 0 else 1
  | .wait instant next, time =>
    next.work cost known (max time instant) + cost + if time < instant then 1 else 0

/-- What the load of an event has left to do. -/
def Event.work (cost : Nat) (loader : Loader) (e : Event) : Nat :=
  e.action.work cost (loader.outcome? e.load).isSome e.time

/-- A sum is bounded if its summands are. -/
theorem sum_map_le_mul {α : Type} {f : α → Nat} {xs : List α} {bound : Nat}
    (h : ∀ x ∈ xs, f x ≤ bound) : (xs.map f).sum ≤ bound * xs.length := by
  have hsum := List.sum_le_card_nsmul (xs.map f) bound (by simpa using h)
  rwa [List.length_map, Nat.nsmul_eq_mul, Nat.mul_comm] at hsum

namespace LoadAction

variable {cost : Nat}

theorem work_pos (hcost : cost ≠ 0) (known : Bool) (action : LoadAction) (time : Nat) :
    0 < action.work cost known time := by
  cases action <;> simp only [work] <;> omega

theorem work_mono {known known' : Bool} (h : known → known') (action : LoadAction) (time : Nat) :
    action.work cost known' time ≤ action.work cost known time := by
  induction action generalizing time with
  | register => exact le_rfl
  | dispatch => exact le_rfl
  | resume batch rest => exact le_rfl
  | collect =>
    cases known with
    | true => rw [h rfl]
    | false => cases known' <;> simp [work]
  | wait instant next ih =>
    have hnext := ih (max time instant)
    simp only [work]
    omega

end LoadAction

/-- What is known stays known. -/
theorem Loader.isSome_outcome?_of_append {loader loader' : Loader} {more : List (Nat × LoadOutcome)}
    (h : loader'.outcomes = loader.outcomes ++ more) {i : Nat} (hi : (loader.outcome? i).isSome) :
    (loader'.outcome? i).isSome := by
  rw [outcome?, h, List.lookup_append, Option.isSome_or]
  exact Bool.or_eq_true_iff.mpr (.inl hi)

theorem Loader.Fetches.isSome_outcome? {db : Database} {tables : Fields Table} {model : String}
    {loader loader' : Loader} (h : loader.Fetches db tables model loader') {i : Nat}
    (hi : (loader.outcome? i).isSome) : (loader'.outcome? i).isSome := by
  obtain ⟨_, _, -, -, houtcomes⟩ := h.exists_outcomes
  exact isSome_outcome?_of_append houtcomes hi

namespace Loads

variable {σ : Type} {cost : Nat}

/-! ## What is left to do -/

/-- The work that is left. A load that waits comes back for its outcome. -/
def toil (cost : Nat) (s : Loads σ) : Nat :=
  (s.agenda.map (Event.work cost s.loader)).sum + cost * s.waiting.length

/-- The last turn that has the places of the present one. -/
def lastTurn (s : Loads σ) : Nat :=
  if !s.queued ∧ s.clock = 0 ∧ s.turn = 0 then 1 else s.turn

/-- How often an event is put off before there are free places again. -/
def passes (s : Loads σ) (e : Event) : Nat :=
  if e.time = s.clock then s.lastTurn + 1 - max e.turn s.turn else 0

/-- How often an event is put off for want of a place. -/
def putOff (s : Loads σ) (e : Event) : Nat :=
  if s.world.places = 0 then s.passes e else 0

/-- How often loads are put off for want of a place. -/
def delay (s : Loads σ) : Nat :=
  (s.agenda.map s.putOff).sum + (if s.world.places = 0 then 2 else 0) * s.waiting.length

/-- What is left to do, with the times that loads are put off. -/
def potential (cost : Nat) (s : Loads σ) : Nat :=
  s.toil cost + s.delay

/-- The loads that have not come to their end. -/
def crowd (s : Loads σ) : Nat :=
  s.agenda.length + s.waiting.length

theorem passes_le (s : Loads σ) (e : Event) : s.passes e ≤ 2 := by
  unfold passes lastTurn
  split <;> (try split) <;> omega

/-- In a later turn an event is put off less often. -/
theorem passes_le_passes (s : Loads σ) {e f : Event} (htime : f.time = e.time)
    (hturn : e.turn ≤ f.turn) : s.passes f ≤ s.passes e := by
  unfold passes
  rw [htime]
  split <;> omega

theorem putOff_le (s : Loads σ) (e : Event) : s.putOff e ≤ if s.world.places = 0 then 2 else 0 := by
  unfold putOff
  split
  · exact s.passes_le e
  · exact le_rfl

theorem putOff_of_places (s : Loads σ) (h : s.world.places ≠ 0) (e : Event) : s.putOff e = 0 :=
  if_neg h

theorem delay_of_places (s : Loads σ) (h : s.world.places ≠ 0) : s.delay = 0 := by
  unfold delay
  rw [if_neg h, Nat.zero_mul, Nat.add_zero, funext (s.putOff_of_places h)]
  simp

/-- Each load is put off twice at most. -/
theorem delay_le (s : Loads σ) : s.delay ≤ 2 * s.crowd := by
  by_cases hplaces : s.world.places = 0
  · have hagenda : (s.agenda.map s.putOff).sum ≤ 2 * s.agenda.length :=
      sum_map_le_mul fun e _ => (s.putOff_le e).trans_eq (if_pos hplaces)
    rw [delay, crowd, if_pos hplaces]
    omega
  · rw [s.delay_of_places hplaces]
    exact Nat.zero_le _

/-- With more outcomes known, less work is left. -/
theorem work_sum_le (cost : Nat) {loader loader' : Loader}
    (h : ∀ i, (loader.outcome? i).isSome → (loader'.outcome? i).isSome) (agenda : Agenda) :
    (agenda.map (Event.work cost loader')).sum ≤ (agenda.map (Event.work cost loader)).sum :=
  List.sum_le_sum fun e _ => e.action.work_mono (h e.load) e.time

/-- While the places are those of the turn before, nobody is put off more often. -/
theorem passes_advance_le (s : Loads σ) {e : Event} (rest : Agenda) (h : s.keepsPlaces e) (f : Event) :
    (s.advance e rest).passes f ≤ s.passes f := by
  simp only [keepsPlaces, Bool.and_eq_true, Bool.or_eq_true, decide_eq_true_eq,
    Bool.not_eq_true'] at h
  obtain ⟨hclock, hturn | ⟨⟨hqueued, htime⟩, hturn⟩⟩ := h
  · simp only [passes, lastTurn, advance, hclock, hturn]
    exact le_rfl
  · simp only [passes, lastTurn, advance, hclock, hqueued, htime, hturn]
    split
    · by_cases hfirst : s.turn = 0 <;> simp [hfirst] <;> omega
    · exact le_rfl

/-- Coming to an event gives nobody more to do. -/
theorem potential_advance_le (s : Loads σ) {e : Event} {rest : Agenda} (h : s.agenda = e :: rest) :
    ((s.advance e rest).goOn e e.action).potential cost ≤ s.potential cost := by
  have htoil : ((s.advance e rest).goOn e e.action).toil cost = s.toil cost := by
    rw [toil, toil, h]
    rfl
  rw [potential, potential, htoil]
  refine Nat.add_le_add_left ?_ _
  by_cases hkeeps : s.keepsPlaces e
  · have hplaces : (s.advance e rest).world.places = s.world.places := if_pos hkeeps
    have hputOff : ∀ f, (s.advance e rest).putOff f ≤ s.putOff f := by
      intro f
      unfold putOff
      rw [hplaces]
      split
      · exact s.passes_advance_le rest hkeeps f
      · exact le_rfl
    rw [delay, delay, h]
    refine Nat.add_le_add (List.sum_le_sum fun f _ => hputOff f) ?_
    simp only [goOn, hplaces]
    exact le_rfl
  · have hplaces : (s.advance e rest).world.places = World.placesPerTurn := if_neg hkeeps
    rw [delay_of_places]
    · exact Nat.zero_le _
    · exact hplaces ▸ (by decide)

/-! ## Single events -/

section Events

variable {db : Database} {tables : Fields Table} {tick : Tick} {loads : List Load}
  {s next : Loads Memory} {e : Event}

theorem crowd_perm {agenda : Agenda} (h : agenda.Perm (e :: s.agenda)) :
    ({ s with agenda } : Loads Memory).crowd = s.crowd + 1 := by
  have hlength := h.length_eq
  simp only [crowd, List.length_cons] at hlength ⊢
  omega

/-- An event makes place for one other at most. -/
theorem Happens.crowd_le (h : Happens db tables tick loads s e next) : next.crowd ≤ s.crowd + 1 := by
  cases h with
  | nothing => exact Nat.le_succ _
  | giveWay hplaces hagenda => exact (crowd_perm hagenda).le
  | sleep hplaces haction htime hagenda => exact (crowd_perm hagenda).le
  | wake => exact (crowd_perm (.refl _)).le
  | refuse => exact Nat.le_succ _
  | register haction hload hkey hagenda => exact (crowd_perm hagenda).le
  | dispatch => exact (crowd_perm (.refl _)).le
  | fetch haction hload hfetches hstore hplaces hcalled hwaiting hagenda =>
    -- the loads that are called change from waiting to the agenda
    have hlength := hagenda.length_eq
    have hlength' := hwaiting.length_eq
    simp only [crowd, List.length_cons, List.length_append, List.length_map] at hlength hlength' ⊢
    omega
  | collect => exact Nat.le_succ _
  | await =>
    simp only [crowd, List.length_append, List.length_singleton]
    omega

/-- One event more is one load more that has something to do. -/
theorem potential_perm {agenda : Agenda} (h : agenda.Perm (e :: s.agenda)) :
    ({ s with agenda } : Loads Memory).potential cost =
      e.work cost s.loader + s.putOff e + s.potential cost := by
  have hwork := (h.map (Event.work cost s.loader)).sum_eq
  have hputOff := (h.map s.putOff).sum_eq
  rw [List.map_cons, List.sum_cons] at hwork hputOff
  have htoil : ({ s with agenda } : Loads Memory).toil cost = e.work cost s.loader + s.toil cost := by
    simp only [toil, hwork]
    omega
  have hdelay : ({ s with agenda } : Loads Memory).delay = s.putOff e + s.delay := by
    show (agenda.map s.putOff).sum + _ = _
    rw [hputOff, Nat.add_assoc]
    rfl
  rw [potential, potential, htoil, hdelay]
  omega

/-- With more outcomes known, less is left to do. -/
theorem potential_loader_le {world : World Memory} {loader : Loader}
    (hplaces : world.places = s.world.places)
    (hknown : ∀ i, (s.loader.outcome? i).isSome → (loader.outcome? i).isSome) :
    ({ s with world, loader } : Loads Memory).potential cost ≤ s.potential cost := by
  have hdelay : ({ s with world, loader } : Loads Memory).delay = s.delay := by
    have hputOff : ({ s with world, loader } : Loads Memory).putOff = s.putOff := by
      funext f
      simp only [putOff, hplaces]
      rfl
    simp only [delay, hputOff, hplaces]
  exact Nat.add_le_add (Nat.add_le_add_right (work_sum_le cost hknown s.agenda) _) hdelay.le

/-- Getting ahead pays for those that are put off because a place is taken. -/
theorem potential_lt_of_place (hcrowd : next.crowd ≤ s.crowd + 1) (hcost : 2 * (s.crowd + 1) < cost)
    (htoil : next.toil cost + cost ≤ e.work cost s.loader + s.toil cost) :
    next.potential cost < e.work cost s.loader + s.putOff e + s.potential cost := by
  have hdelay := next.delay_le
  unfold potential
  omega

/-- An event that finds no place has fewer turns to wait for one. -/
theorem putOff_next_turn (hplaces : s.world.places = 0) (hclock : e.time = s.clock)
    (hturn : e.turn = s.turn) : s.putOff { e with turn := e.turn + 1 } < s.putOff e := by
  simp only [putOff, passes, if_pos hplaces, if_pos hclock, hturn]
  have hlast : s.turn ≤ s.lastTurn := by
    unfold lastTurn
    split <;> omega
  omega

theorem work_afterTick_lt (cost : Nat) (tick : Tick) (loader : Loader) (haction : e.action = .register) :
    (e.afterTick tick).work cost loader < e.work cost loader := by
  cases tick <;> simp only [Event.work, Event.afterTick, LoadAction.work, haction]
  · omega
  · split <;> omega
  · split <;> omega

theorem putOff_afterTick_le (s : Loads Memory) (e : Event) (tick : Tick) :
    s.putOff (e.afterTick tick) ≤ s.putOff e := by
  unfold putOff
  split
  · cases tick with
    | turn => exact s.passes_le_passes rfl (Nat.le_succ _)
    | after ms => exact le_rfl
    | never => exact le_rfl
  · exact le_rfl

theorem work_collect_le (cost : Nat) (loader : Loader) (e : Event) :
    ({ e with action := .collect } : Event).work cost loader ≤ cost + 1 := by
  simp only [Event.work, LoadAction.work]
  split <;> omega

theorem work_collect_of_known {loader : Loader} (hknown : (loader.outcome? e.load).isSome)
    (haction : e.action = .collect) : e.work cost loader = cost := by
  rw [Event.work, haction, LoadAction.work, if_pos hknown, Nat.add_zero]

/-- The loads that are called are no longer waiting, and have nothing to do but take their outcomes. -/
theorem potential_call_le {called waiting : List Nat} {turnOf : Nat → Nat} {agenda : Agenda}
    (hcalled : ∀ i ∈ called, (s.loader.outcome? i).isSome)
    (hwaiting : s.waiting.Perm (called ++ waiting))
    (hagenda : agenda.Perm (called.map (fun i => ⟨s.clock, turnOf i, i, .collect⟩) ++ s.agenda)) :
    ({ s with agenda, waiting } : Loads Memory).potential cost ≤ s.potential cost := by
  have hlength := hwaiting.length_eq
  rw [List.length_append] at hlength
  have hworks : ((called.map fun i => (⟨s.clock, turnOf i, i, .collect⟩ : Event)).map
      (Event.work cost s.loader)).sum ≤ cost * called.length := by
    rw [List.map_map]
    exact sum_map_le_mul fun i hi => (work_collect_of_known (hcalled i hi) rfl).le
  have hputOffs : ((called.map fun i => (⟨s.clock, turnOf i, i, .collect⟩ : Event)).map
      s.putOff).sum ≤ (if s.world.places = 0 then 2 else 0) * called.length := by
    rw [List.map_map]
    exact sum_map_le_mul fun i _ => s.putOff_le _
  have htoil : ({ s with agenda, waiting } : Loads Memory).toil cost ≤ s.toil cost := by
    have hsum := (hagenda.map (Event.work cost s.loader)).sum_eq
    rw [List.map_append, List.sum_append] at hsum
    simp only [toil, hsum, hlength, Nat.mul_add]
    omega
  have hdelay : ({ s with agenda, waiting } : Loads Memory).delay ≤ s.delay := by
    have hsum := (hagenda.map s.putOff).sum_eq
    rw [List.map_append, List.sum_append] at hsum
    show (agenda.map s.putOff).sum + (if s.world.places = 0 then 2 else 0) * waiting.length ≤ _
    rw [delay, hsum, hlength, Nat.mul_add]
    omega
  exact Nat.add_le_add htoil hdelay

/-- A load that has fetched its round has only its own outcome to take. -/
theorem potential_fetch_lt {world : World Memory} {loader : Loader} {called waiting : List Nat}
    {turnOf : Nat → Nat} {agenda : Agenda} (haction : e.action = .dispatch)
    (hplaces : world.places = s.world.places)
    (hknown : ∀ i, (s.loader.outcome? i).isSome → (loader.outcome? i).isSome)
    (hcalled : ∀ i ∈ called, (loader.outcome? i).isSome)
    (hwaiting : s.waiting.Perm (called ++ waiting))
    (hagenda : agenda.Perm ({ e with action := .collect } ::
      (called.map (fun i => ⟨s.clock, turnOf i, i, .collect⟩) ++ s.agenda))) :
    ({ s with world, loader, agenda, waiting } : Loads Memory).potential cost <
      e.work cost s.loader + s.putOff e + s.potential cost := by
  have hwork : e.work cost s.loader = cost + 2 := by rw [Event.work, haction, LoadAction.work]
  let collects : Agenda := called.map fun i => ⟨s.clock, turnOf i, i, .collect⟩
  let fetched : Loads Memory := { s with world, loader }
  let after : Loads Memory := { fetched with agenda := collects ++ s.agenda, waiting }
  have hafter : after.potential cost ≤ s.potential cost :=
    (potential_call_le (s := fetched) hcalled hwaiting (.refl _)).trans
      (potential_loader_le hplaces hknown)
  have hputOff : after.putOff { e with action := .collect } = s.putOff e := by
    simp only [putOff, after, fetched, hplaces]
    rfl
  have hcollect := work_collect_le cost after.loader e
  rw [show potential cost { after with agenda } = _ from potential_perm hagenda, hputOff]
  omega

/-- An event lowers what is left to do. -/
theorem Happens.potential_lt (h : Happens db tables tick loads s e next)
    (hclock : e.time = s.clock) (hturn : e.turn = s.turn) (hcost : 2 * (s.crowd + 1) < cost) :
    next.potential cost < (s.goOn e e.action).potential cost := by
  have hcrowd := h.crowd_le
  have hbefore : (s.goOn e e.action).potential cost =
      e.work cost s.loader + s.putOff e + s.potential cost := potential_perm (.refl _)
  have hpos : 0 < e.work cost s.loader := e.action.work_pos (by omega) _ _
  rw [hbefore]
  cases h with
  | nothing => omega
  | giveWay hplaces hagenda =>
    -- there is as much work as before, but places are free one turn sooner
    have hputOff := putOff_next_turn hplaces hclock hturn
    rw [potential_perm hagenda]
    exact Nat.add_lt_add_right (Nat.add_lt_add_left hputOff _) _
  | @sleep hplaces instant next haction htime agenda hagenda =>
    have hwork : ({ e with time := instant, turn := 0 } : Event).work cost s.loader + 1 =
        e.work cost s.loader := by
      simp only [Event.work, haction, LoadAction.work, Nat.max_eq_right htime.le, max_self,
        if_pos htime, lt_irrefl, if_false]
    rw [potential_perm hagenda, s.putOff_of_places hplaces, s.putOff_of_places hplaces]
    omega
  | @wake hplaces instant action haction htime =>
    -- the place may be the last one, and then all the others are put off
    refine potential_lt_of_place hcrowd hcost ?_
    have hwork : ({ e with action } : Event).work cost s.loader + cost ≤ e.work cost s.loader := by
      simp only [Event.work, haction, LoadAction.work, Nat.max_eq_left htime]
      exact Nat.le_add_right _ _
    have htoil : (s.takePlace.goOn e action).toil cost =
        ({ e with action } : Event).work cost s.loader + s.toil cost := Nat.add_assoc _ _ _
    omega
  | refuse haction hload hkey =>
    refine (potential_loader_le rfl fun i => ?_).trans_lt (Nat.lt_add_of_pos_left (by omega))
    exact Loader.isSome_outcome?_of_append rfl
  | @register load key haction hload hkey agenda hagenda =>
    have hwork := work_afterTick_lt cost tick s.loader haction
    have hputOff := s.putOff_afterTick_le e tick
    have hnote : ({ s with loader := s.loader.register load.model e.load key, agenda } :
        Loads Memory).potential cost = ({ s with agenda } : Loads Memory).potential cost := rfl
    rw [hnote, potential_perm hagenda]
    omega
  | dispatch haction hload hpending =>
    have hcollect := work_collect_le cost s.loader e
    have hwork : e.work cost s.loader = cost + 2 := by rw [Event.work, haction, LoadAction.work]
    rw [show (s.goOn e .collect).potential cost = _ from potential_perm (.refl _)]
    show _ + s.putOff e + _ < _
    omega
  | fetch haction hload hfetches hstore hplaces hcalled hwaiting hagenda =>
    exact potential_fetch_lt haction hplaces (fun i => hfetches.isSome_outcome?) hcalled hwaiting hagenda
  | collect hplaces haction hknown =>
    refine potential_lt_of_place hcrowd hcost ?_
    rw [work_collect_of_known hknown haction, Nat.add_comm]
    exact le_rfl
  | await hplaces haction hunknown =>
    have hwork : e.work cost s.loader = cost + 1 := by
      rw [Event.work, haction, LoadAction.work, if_neg (Bool.eq_false_iff.mp hunknown)]
    have hmore : ({ s with waiting := s.waiting ++ [e.load] } : Loads Memory).toil cost =
        s.toil cost + cost := by
      rw [toil, toil, List.length_append, List.length_singleton, Nat.mul_succ]
      exact (Nat.add_assoc _ _ _).symm
    have hdelay : ({ s with waiting := s.waiting ++ [e.load] } : Loads Memory).delay = 0 :=
      delay_of_places _ hplaces
    rw [potential, potential, s.delay_of_places hplaces, hdelay, hmore]
    omega

end Events

/-! ## Runs -/

section Runs

variable {db : Database} {client : Client σ} {tick : Tick} {loads : List Load} {going : Event → Bool}
  {I : Loads σ → Prop} {left : Loads σ → Nat}

/-- What every event keeps holds at the end of a run. If every event lowers what is left to do, and the
run allows for all of that, then the run stops only where it is meant to. -/
theorem runWhile_spec
    (hstep : ∀ s e rest, I s → s.agenda = e :: rest → going e = true →
      I ((s.advance e rest).perform db client tick loads e) ∧
        left ((s.advance e rest).perform db client tick loads e) < left s) (n : Nat) (s : Loads σ)
    (h : I s) (hleft : left s ≤ n) :
    I (s.runWhile db client tick loads going n) ∧
      left (s.runWhile db client tick loads going n) ≤ left s ∧
      ∀ e ∈ (s.runWhile db client tick loads going n).agenda.head?, going e = false := by
  induction n generalizing s with
  | zero =>
    refine ⟨h, le_rfl, fun e he => Bool.eq_false_iff.mpr fun hgoing => ?_⟩
    obtain ⟨rest, hagenda⟩ := List.head?_eq_some_iff.mp he
    exact absurd (hstep s e rest h hagenda hgoing).2 (by omega)
  | succ n ih =>
    unfold runWhile
    cases hagenda : s.agenda with
    | nil => exact ⟨h, le_rfl, fun e he => by simp [hagenda] at he⟩
    | cons e rest =>
      simp only
      split
      · rename_i hgoing
        obtain ⟨hnext, hlower⟩ := hstep s e rest h hagenda hgoing
        obtain ⟨hend, hle, hhead⟩ := ih _ hnext (by omega)
        exact ⟨hend, hle.trans hlower.le, hhead⟩
      · rename_i hgoing
        refine ⟨h, le_rfl, fun f hf => ?_⟩
        obtain rfl : e = f := by simpa [hagenda] using hf
        exact Bool.eq_false_iff.mpr hgoing

theorem le_eventBound (db : Database) (loads : List Load) :
    loads.length * (6 * loads.length + 10) ≤ eventBound db loads := by
  cases hn : loads.length with
  | zero => exact (Nat.zero_mul _).trans_le (Nat.zero_le _)
  | succ k =>
    have hattempts : k + 1 ≤ (k + 1) * (db.config.retry.repetitions + 1) *
        (db.config.retry.repetitions + 1) :=
      (Nat.le_mul_of_pos_right _ (Nat.succ_pos _)).trans
        (Nat.le_mul_of_pos_right _ (Nat.succ_pos _))
    unfold eventBound
    simp only [hn, Nat.mul_assoc (k + 1) (8 + _)]
    refine Nat.mul_le_mul_left _ ?_
    calc 6 * (k + 1) + 10 ≤ (8 + 3 * (k + 1)) * 2 := by omega
      _ ≤ _ := Nat.mul_le_mul (by omega) (by omega)

/-- At most, a load waits for its start and for its tick and then comes back for its outcome. -/
theorem toil_ofList_le (cost : Nat) (tick : Tick) (loads : List Load) (world : World σ) :
    (ofList tick loads world).toil cost ≤ (3 * cost + 5) * loads.length := by
  have hlength : (ofList tick loads world).agenda.length = loads.length := List.length_mapIdx
  rw [← hlength]
  show (List.map _ _).sum ≤ _
  refine sum_map_le_mul fun e he => ?_
  obtain ⟨i, hi, rfl⟩ := List.mem_mapIdx.mp he
  simp only [Event.work]
  cases loads[i].start? with
  | none =>
    simp only [Option.map_none, Option.getD_none, LoadAction.work]
    omega
  | some ms =>
    simp only [Option.map_some, Option.getD_some, LoadAction.work]
    split <;> omega

/-- A run allows for everything that loads have to do. -/
theorem potential_ofList_le (db : Database) (tick : Tick) (loads : List Load) (world : World σ) :
    (ofList tick loads world).potential (2 * loads.length + 1) ≤ eventBound db loads := by
  have htoil := toil_ofList_le (2 * loads.length + 1) tick loads world
  have hdelay : (ofList tick loads world).delay ≤ 2 * loads.length :=
    (delay_le _).trans_eq (congrArg (2 * ·) List.length_mapIdx)
  calc (ofList tick loads world).potential (2 * loads.length + 1)
      ≤ (3 * (2 * loads.length + 1) + 5) * loads.length + 2 * loads.length :=
        Nat.add_le_add htoil hdelay
    _ = loads.length * (6 * loads.length + 10) := by
        rw [← Nat.add_mul, Nat.mul_comm]
        congr 1
        omega
    _ ≤ eventBound db loads := le_eventBound db loads

end Runs

end Loads

end KeyedQuery
