import KeyedQuery.Proofs.Transaction.InPlace
import KeyedQuery.Proofs.Transaction.Steps
import KeyedQuery.Proofs.Transaction.Updates

/-!
# Calls that come to nothing

A call of a transaction comes to nothing if it fails, for whatever reason, or if there is no row to change.
Carried out in place, such a call has only read from the store, and has left the transaction exactly as it
was (`Transaction.keepsTo_perform`). So if reading does not change the store, whatever is done with the
transaction later on comes out as if the call had not been made
(`Transaction.comesToNothing_leaves`).
-/

namespace KeyedQuery

variable {α σ : Type}

/-! ## What a run goes by -/

/-- A dialogue goes by the store alone, and not by what has been recorded before. -/
theorem Dialogue.run_eq_of_store_eq {client : Client σ} (p : Dialogue α) {w w' : World σ}
    (h : w.store = w'.store) : (p.run client w).1 = (p.run client w').1 ∧
      (p.run client w).2.store = (p.run client w').2.store := by
  induction p generalizing w w' with
  | done a => exact ⟨rfl, h⟩
  | ask r next ih =>
    obtain ⟨s, _, _, _, _⟩ := w
    obtain ⟨s', _, _, _, _⟩ := w'
    obtain rfl : s = s' := h
    exact ih _ rfl
  | sleep ms next ih => exact ih (show (w.sleep ms).store = (w'.sleep ms).store from h)
  | tally c n next ih => exact ih (show (w.count c n).store = (w'.count c n).store from h)

namespace Transaction

/-! ## Calls in place -/

/-- What a call answers if it succeeds. -/
abbrev Call.Answer : Call → Type
  | .create _ _ => Item
  | .update _ _ _ => Option Item
  | .delete _ _ => Unit

/-- Make a call of the transaction. -/
def Call.perform (db : Database) : (call : Call) → InPlace Transaction call.Answer
  | .create model data => InPlace.create db model data
  | .update model conditions patch => InPlace.update db model conditions patch
  | .delete model conditions => InPlace.delete db model conditions

/-- The call fails, or there is no row to change. -/
def Call.ComesToNothing : (call : Call) → Except Fault call.Answer → Prop
  | .create _ _, result => ∃ fault, result = .error fault
  | .update _ _ _, result => (∃ fault, result = .error fault) ∨ result = .ok none
  | .delete _ _, result => ∃ fault, result = .error fault

variable {db : Database} {tx : Transaction} {model : String} {conditions : List Condition}
  {g : Target} {patch item : Item} {result : Option Item × Transaction}

/-- A staged update is an update of some row. -/
theorem of_stageUpdate {current next : Item} (h : tx.stageUpdate g current next = .ok result) :
    result.1 ≠ none := by
  obtain ⟨_, _, -, -, rfl⟩ := stageUpdate_cases h
  exact nofun

theorem of_changePut (h : tx.changePut db model g item patch = .ok result) (hnone : result.1 = none) :
    result.2 = tx := by
  rcases changePut_cases h with ⟨-, b, -, rfl⟩ | ⟨-, rfl⟩
  · cases hnone
  · rfl

theorem of_extendUpdate {staged : StagedUpdate}
    (h : tx.extendUpdate db model g staged patch = .ok result) (hnone : result.1 = none) :
    result.2 = tx := by
  rcases extendUpdate_cases h with ⟨-, h⟩ | ⟨-, rfl⟩
  · exact absurd hnone (of_stageUpdate h)
  · rfl

theorem Revised.eq_of_none {P : Item → Prop} (h : Revised P db tx model g patch result)
    (hnone : result.1 = none) : result.2 = tx := by
  cases h with
  | missing => rfl
  | put _ hresult => exact of_changePut hresult hnone
  | extended _ hresult => exact of_extendUpdate hresult hnone
  | read _ hresult => exact absurd hnone (of_stageUpdate hresult)

/-- A call only reads, and if it comes to nothing it leaves the transaction alone. -/
theorem keepsTo_perform (db : Database) (tx : Transaction) (call : Call) :
    ((call.perform db).on tx).KeepsTo Request.Reads fun ended =>
      call.ComesToNothing ended.1 → ended.2 = tx := by
  cases call with
  | create model data =>
    rw [Call.perform, InPlace.on_create]
    rintro ⟨fault, hfault⟩
    cases h : tx.create db model data with
    | error _ => rfl
    | ok created =>
      rw [h] at hfault
      cases hfault
  | update model conditions patch =>
    rw [Call.perform, InPlace.on_update]
    refine Dialogue.KeepsTo.bind (keepsTo_update_reads db tx model conditions patch)
      fun result hresult => ?_
    cases result with
    | error fault => exact fun _ => rfl
    | ok updated =>
      rintro (⟨fault, hfault⟩ | hnone)
      · cases hfault
      · obtain ⟨g, -, hrevised⟩ := hresult updated rfl
        exact hrevised.eq_of_none (Except.ok.inj hnone)
  | delete model conditions =>
    rw [Call.perform, InPlace.on_delete]
    rintro ⟨fault, hfault⟩
    cases h : tx.delete db model conditions with
    | error _ => rfl
    | ok deleted =>
      rw [h] at hfault
      cases hfault

/-- Suppose that a call of a transaction fails, for whatever reason, or finds no row to change. Then the
transaction is as it was, and all that was sent are reads, so the store has kept whatever reads preserve.
If reads do not change the store, whatever is done with the transaction later on comes to the same, and
leaves the same store, as if the call had not been made. -/
theorem comesToNothing_leaves (db : Database) (client : Client σ) (tx : Transaction) (w : World σ)
    (call : Call) :
    let ended := ((call.perform db).on tx).run client w
    call.ComesToNothing ended.1.1 →
      ended.1.2 = tx ∧
      (∃ sent, ended.2.requests = w.requests ++ sent ∧ ∀ r ∈ sent, r.Reads) ∧
      (∀ I : σ → Prop, (∀ r s, r.Reads → I s → I (client r s).2) → I w.store → I ended.2.store) ∧
      ((∀ r, r.Reads → (client r w.store).2 = w.store) →
        ∀ {α : Type} (later : Transaction → Dialogue α),
          ((later ended.1.2).run client ended.2).1 = ((later tx).run client w).1 ∧
          ((later ended.1.2).run client ended.2).2.store = ((later tx).run client w).2.store) := by
  intro ended hnothing
  have hkeeps := keepsTo_perform db tx call
  have hinvariant : ∀ I : σ → Prop, (∀ r s, r.Reads → I s → I (client r s).2) → I w.store →
      I ended.2.store := fun I hI hw =>
    (hkeeps.run (J := fun s _ => I s) (fun r s _ hr hs => hI r s hr hs) hw).1
  have htx : ended.1.2 = tx :=
    (hkeeps.run (J := fun _ _ => True) (fun _ _ _ _ _ => trivial) trivial).2 hnothing
  refine ⟨htx, ?_, hinvariant, fun hreads _ later => ?_⟩
  · refine (hkeeps.run (J := fun _ requests => ∃ sent, requests = w.requests ++ sent ∧
      ∀ r ∈ sent, r.Reads) (fun r _ requests hr hsent => ?_) ⟨[], by simp⟩).1
    obtain ⟨sent, rfl, hsent⟩ := hsent
    refine ⟨sent ++ [r], List.append_assoc _ _ _, fun r' hr' => ?_⟩
    rcases List.mem_append.mp hr' with hr' | hr'
    · exact hsent r' hr'
    · rwa [List.mem_singleton.mp hr']
  · have hstore : ended.2.store = w.store :=
      hinvariant (· = w.store) (fun r s hr hs => by rw [hs]; exact hreads r hr) rfl
    rw [htx]
    exact (later tx).run_eq_of_store_eq hstore

/-- Ada is to be given the name that she has. The update reads her row and fails, and bob, who was created
before, is found in the transaction as if nothing had been tried. -/
theorem comesToNothing_leaves_users :
    let user : ModelDef := { name := "user", table := "users", primaryKey := { partition := "id" } }
    let s : Schema := .ofModels [user]
    let db : Database := { resolver := s.resolver, horizon := 1 }
    let ada : Item := [("id", .num (.int 1)), ("name", .str "ada")]
    let bob : Item := [("id", .num (.int 2)), ("name", .str "bob")]
    let byId : Int → List Condition := fun id => [⟨"id", none, .num (.int id), none⟩]
    let w : World Memory := { store := (Memory.ofSchema s none).seed "users" [.map ada] }
    let tx : Transaction := { buffer := { writes := [.put "users" bob] } }
    let call : Call := .update "user" (byId 1) [("name", .str "ada")]
    let ended := ((call.perform db).on tx).run Memory.receive w
    let look := fun tx : Transaction => (tx.findOne db { model := "user", conditions := byId 2 }).run
    call.ComesToNothing ended.1.1 ∧ ended.2.requests.length = 1 ∧ ended.1.2 = tx ∧
      ended.2.store.tables = w.store.tables ∧
      ((look ended.1.2).run Memory.receive ended.2).1 = .ok (some bob) := by
  intro user s db ada bob byId w tx call
  have hleaves := comesToNothing_leaves db Memory.receive tx w call
  have hnothing : call.ComesToNothing (((call.perform db).on tx).run Memory.receive w).1.1 :=
    .inl ⟨.invalidUpdate "Update produced no changes", by decide +kernel⟩
  have hrequests : (((call.perform db).on tx).run Memory.receive w).2.requests.length = 1 := by
    decide +kernel
  generalize ((call.perform db).on tx).run Memory.receive w = ended at hleaves hnothing hrequests ⊢
  intro _ look
  have hcalm : w.store.IsCalm := ⟨rfl, rfl⟩
  obtain ⟨htx, -, hkeeps, hlater⟩ := hleaves hnothing
  have hlook : ((look tx).run Memory.receive w).1 = .ok (some bob) := by decide +kernel
  refine ⟨hnothing, hrequests, htx, ?_, ?_⟩
  · exact hkeeps (·.tables = w.store.tables)
      (fun r m hr hm => (Memory.receive_of_reads hr m).1.trans hm) rfl
  · exact ((hlater (fun r hr => by rw [hcalm.receive_eq hr]) look).1).trans hlook

end Transaction

end KeyedQuery
