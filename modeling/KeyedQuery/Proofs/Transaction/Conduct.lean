import KeyedQuery.Proofs.Database.Conduct
import KeyedQuery.Proofs.Transaction.Updates

/-!
# What transactions write

Whatever the store answers, the writes that a transaction buffers name full keys of their tables, and
leave rows with full keys such rows. They leave every row its very key, too, unless the name of the table
continues that of another one behind a slash, or the other way round: then two rows may have one
identifier, and an update of one of them may be extended by the changes to the other. `Transaction.Conforms`
is what every call keeps (`Transaction.keepsTo_call`).
-/

namespace KeyedQuery

variable {tables : Fields Table} {t : Table} {key item : Item} {db : Database} {model : String}
  {conditions : List Condition}

/-! ## Identifiers and keys -/

/-- What stands in front of a slash, in a text that begins with one, is nothing or begins with it. -/
theorem slash_prefix_of_cons_eq {front rest rest' : List Char}
    (h : '/' :: rest = front ++ '/' :: rest') : front = [] ∨ ['/'] <+: front := by
  cases front with
  | nil => exact .inl rfl
  | cons c front =>
    obtain ⟨rfl, -⟩ := List.cons.inj h
    exact .inr ⟨front, rfl⟩

/-- Rows of different tables have one identifier only if one of the names continues the other. -/
theorem Transaction.isBelow_of_rowId_eq {name name' : String} {key' : Item}
    (h : rowId name key = rowId name' key') (hne : name ≠ name') :
    IsBelow name name' ∨ IsBelow name' name := by
  have hlist := congrArg String.toList h
  simp only [rowId, String.toList_append, toList_slash, List.append_assoc,
    List.singleton_append] at hlist
  simp only [IsBelow, String.toList_append, toList_slash]
  rcases List.append_eq_append_iff.mp hlist with ⟨front, hname, hrest⟩ | ⟨front, hname, hrest⟩
  · rcases slash_prefix_of_cons_eq hrest with rfl | hslash
    · exact absurd (String.toList_inj.mp (by simpa using hname)).symm hne
    · exact .inl (hname ▸ (List.prefix_append_right_inj _).mpr hslash)
  · rcases slash_prefix_of_cons_eq hrest with rfl | hslash
    · exact absurd (String.toList_inj.mp (by simpa using hname)) hne
    · exact .inr (hname ▸ (List.prefix_append_right_inj _).mpr hslash)

theorem Table.isIn_of_hasKey (hkey : t.IsKey key) (hin : t.keys.IsIn key)
    (h : item.hasKey key = true) : t.keys.IsIn item := by
  intro a ha
  obtain ⟨v, hv, hnull⟩ := Value.isMissing_eq_false_iff.mp (hin a ha)
  obtain ⟨w, hw, hagrees⟩ := (Item.hasKey_iff hkey.ordered).mp h a v hv
  refine Value.isMissing_eq_false_iff.mpr ⟨w, hw, ?_⟩
  cases w with
  | null =>
    rw [Value.agrees_comm, Value.agrees_null, hnull] at hagrees
    cases hagrees
  | _ => rfl

theorem Transaction.isIn_of_keyOfConditions {normalized : List NormalizedCondition}
    (h : keyOfConditions model t.keys normalized = .ok key) : t.keys.IsIn key := by
  intro a ha
  obtain ⟨v, hv⟩ := exists_keyValue? h ha
  obtain ⟨-, -, -, -, -, hnull⟩ := exists_condition_of_keyValue? hv
  rw [get?_of_keyOfConditions h, if_pos ha, hv]
  exact hnull

/-! ## What calls keep -/

/-- The update is recorded under an identifier of its table, and in a solitary table it does not change
the key. -/
def StagedUpdate.Conforms (tables : Fields Table) (id : String) (u : StagedUpdate) : Prop :=
  ∃ t key, Fields.get? tables u.table = some t ∧ id = Transaction.rowId u.table key ∧
    (tables.Solitary u.table → u.next.SameOn t.keys.attributes u.current)

theorem WriteBuffer.mem_of_mem_stage {b b' : WriteBuffer} {v w : Write}
    (hstage : b.stage w key = .ok b') (hv : v ∈ b'.writes) : v = w ∨ v ∈ b.writes := by
  obtain ⟨-, -, hstage⟩ := exists_of_bind_eq_ok hstage
  split at hstage
  · obtain rfl := Except.ok.inj hstage
    exact (List.mem_or_eq_of_mem_set hv).symm
  · obtain ⟨-, -, hadd⟩ := exists_of_bind_eq_ok hstage
    split at hadd
    · cases hadd
    · obtain rfl := Except.ok.inj hadd
      rcases List.mem_append.mp hv with hv | hv
      · exact .inr hv
      · exact .inl (List.mem_singleton.mp hv)

theorem WriteBuffer.mem_of_pending {b : WriteBuffer} {name : String} {w : Write}
    (h : b.pending name key = .ok (some w)) : w ∈ b.writes ∧ w.table = name := by
  obtain ⟨-, -, h⟩ := exists_of_bind_eq_ok h
  obtain ⟨i, hi, hw⟩ := Option.bind_eq_some_iff.mp (Except.ok.inj h)
  rcases lastPosition?_cases (fun w : Write => w.table = name ∧ w.targets key) b.writes with
    ⟨before, v, after, hwrites, hv, -, hlast⟩ | ⟨-, hlast⟩
  · obtain rfl := Option.some.inj (hi.symm.trans hlast)
    obtain rfl : v = w := by simpa [hwrites] using hw
    exact ⟨List.mem_of_getElem? hw, (of_decide_eq_true hv).1⟩
  · cases hi.symm.trans hlast

namespace Transaction

/-- The buffered writes are accepted, and the recorded updates conform. -/
structure Conforms (tables : Fields Table) (tx : Transaction) : Prop where
  writes : ∀ w ∈ tx.buffer.writes, tables.Accepts w
  updates : ∀ id u, Fields.get? tx.updates id = some u → u.Conforms tables id

variable {tx : Transaction} {b : WriteBuffer} {w : Write} {g : Target} {current next patch : Item}
  {result : Option Item × Transaction}

theorem conforms_empty (tables : Fields Table) : Conforms tables {} :=
  ⟨fun _ hw => absurd hw List.not_mem_nil, nofun⟩

namespace Conforms

theorem writes_stage (h : tx.Conforms tables) (hw : tables.Accepts w)
    (hstage : tx.buffer.stage w key = .ok b) : ∀ v ∈ b.writes, tables.Accepts v := by
  intro v hv
  rcases WriteBuffer.mem_of_mem_stage hstage hv with rfl | hv
  · exact hw
  · exact h.writes v hv

theorem updates_erase (h : tx.Conforms tables) (name : String) :
    ∀ id u, Fields.get? (Fields.erase tx.updates name) id = some u → u.Conforms tables id := by
  intro id u hu
  rw [Fields.get?_erase] at hu
  split at hu
  · cases hu
  · exact h.updates id u hu

theorem updates_insert (h : tx.Conforms tables) {name : String} {staged : StagedUpdate}
    (hstaged : staged.Conforms tables name) :
    ∀ id u, Fields.get? (Fields.insert tx.updates name staged) id = some u →
      u.Conforms tables id := by
  intro id u hu
  rw [Fields.get?_insert] at hu
  split at hu
  · rename_i hname
    obtain rfl := Option.some.inj hu
    exact hname ▸ hstaged
  · exact h.updates id u hu

theorem create (h : tx.Conforms tables) (hkeys : db.KeysIn tables) {data : Item}
    {created : Item × Transaction} (hresult : tx.create db model data = .ok created) :
    created.2.Conforms tables := by
  obtain ⟨table, key, item, b, hrow, hstage, rfl⟩ := create_cases hresult
  exact ⟨h.writes_stage (Database.accepts_newRow hkeys hrow) hstage, h.updates_erase _⟩

theorem delete (h : tx.Conforms tables) (hkeys : db.KeysIn tables) {tx' : Transaction}
    (hresult : tx.delete db model conditions = .ok tx') : tx'.Conforms tables := by
  obtain ⟨g, b, hg, hstage, rfl⟩ := delete_cases hresult
  obtain ⟨t, ht, hgkeys, hkey⟩ := Target.isKeyed hkeys hg
  have hin : t.keys.IsIn g.key := isIn_of_keyOfConditions (hgkeys ▸ (target_eq_ok hg).2.2.2)
  have hw : tables.Accepts (.delete g.table g.key) :=
    Fields.accepts_of_isUpdate_eq_false ht hin (fun _ => hkey) rfl
  exact ⟨h.writes_stage hw hstage, h.updates_erase _⟩

/-- An update is staged by the difference to a row with a full key, or to one with the key of the row
before. In a solitary table it has that key. -/
theorem stageUpdate (h : tx.Conforms tables) (ht : Fields.get? tables g.table = some t)
    (hin : t.keys.IsIn g.key) (hkey : t.IsKey g.key)
    (hnext : t.keys.IsIn next ∨ next.SameOn t.keys.attributes current)
    (hsame : tables.Solitary g.table → next.SameOn t.keys.attributes current)
    (hresult : tx.stageUpdate g current next = .ok result) : result.2.Conforms tables := by
  obtain ⟨change, b, hchange, hstage, rfl⟩ := stageUpdate_cases hresult
  have hw := Fields.accepts_update ht hin hkey hchange hnext hsame
  exact ⟨h.writes_stage hw hstage, h.updates_insert ⟨t, g.key, ht, rfl, hsame⟩⟩

theorem changePut (h : tx.Conforms tables) (ht : Fields.get? tables g.table = some t)
    (hgkeys : t.keys = g.keys) {name : String}
    (hpending : tx.buffer.pending g.table g.key = .ok (some (.put name item)))
    (hresult : tx.changePut db model g item patch = .ok result) : result.2.Conforms tables := by
  obtain ⟨hput, rfl⟩ : .put name item ∈ tx.buffer.writes ∧ name = g.table :=
    WriteBuffer.mem_of_pending hpending
  rcases changePut_cases hresult with ⟨-, b, hstage, rfl⟩ | ⟨-, rfl⟩
  · obtain ⟨u, hu, hfit, -⟩ := h.writes _ hput
    obtain rfl : t = u := Option.some.inj (ht.symm.trans hu)
    have hin : t.keys.IsIn (db.patchedRow model g.keys item patch) := fun a ha => by
      rw [Database.sameOn_patchedRow hgkeys item patch a ha]
      exact hfit.isIn a ha
    exact ⟨h.writes_stage (Fields.accepts_of_isUpdate_eq_false
      (w := .put g.table (db.patchedRow model g.keys item patch)) ht hin
        (fun hput => by cases hput) rfl) hstage, h.updates⟩
  · exact h

/-- A recorded update is extended. If it is one of another table, the names of the two tables continue
each other, and the row before may have had another key. -/
theorem extendUpdate (h : tx.Conforms tables) (ht : Fields.get? tables g.table = some t)
    (hgkeys : t.keys = g.keys) (hfixed : keyOfConditions model t.keys g.conditions = .ok g.key)
    {staged : StagedUpdate} (hstaged : Fields.get? tx.updates g.id = some staged)
    (hresult : tx.extendUpdate db model g staged patch = .ok result) : result.2.Conforms tables := by
  rcases extendUpdate_cases hresult with ⟨hmatches, hresult⟩ | ⟨-, rfl⟩
  · have hkey := isKey_of_keyOfConditions hfixed
    have hin := isIn_of_keyOfConditions hfixed
    have hpatched : (db.patchedRow model g.keys staged.next patch).SameOn t.keys.attributes
        staged.next := Database.sameOn_patchedRow hgkeys staged.next patch
    have hnext := Table.isIn_of_hasKey hkey hin (hasKey_of_matchesAll hfixed hmatches)
    refine h.stageUpdate ht hin hkey (.inl fun a ha => ?_) (fun hsolitary a ha => ?_) hresult
    · rw [hpatched a ha]
      exact hnext a ha
    · obtain ⟨u, key, hu, hid, hsame⟩ := h.updates _ staged hstaged
      -- Both rows have one identifier, so in a solitary table they are of one table.
      have htable : g.table = staged.table := by
        by_contra hne
        have happart := hsolitary staged.table (by rw [hu]; rfl)
        exact (isBelow_of_rowId_eq hid hne).elim happart.2 happart.1
      obtain rfl : t = u := Option.some.inj (ht.symm.trans (htable ▸ hu))
      exact (hpatched a ha).trans (hsame (htable ▸ hsolitary) a ha)
  · exact h

end Conforms

theorem keepsTo_update (h : tx.Conforms tables) (hkeys : db.KeysIn tables) (patch : Item) :
    Run.KeepsTo tables.Admits (fun result => result.2.Conforms tables)
      (tx.update db model conditions patch) := by
  refine (keepsTo_update_reads db tx model conditions patch).imp (fun _ => Fields.admits_of_reads) ?_
  rintro result ⟨g, hg, hrevised⟩
  obtain ⟨t, ht, hgkeys, -⟩ := Target.isKeyed hkeys hg
  have hfixed : keyOfConditions model t.keys g.conditions = .ok g.key :=
    hgkeys ▸ (target_eq_ok hg).2.2.2
  cases hrevised with
  | missing => exact h
  | put hpending hresult => exact h.changePut ht hgkeys hpending hresult
  | extended hstaged hresult => exact h.extendUpdate ht hgkeys hfixed hstaged hresult
  | @read current _ _ hresult =>
    have hsame : (db.patchedRow model g.keys current patch).SameOn t.keys.attributes current :=
      Database.sameOn_patchedRow hgkeys current patch
    exact h.stageUpdate ht (isIn_of_keyOfConditions hfixed) (isKey_of_keyOfConditions hfixed)
      (.inr hsame) (fun _ => hsame) hresult

/-- Whatever the store answers to it, a call that succeeds leaves a transaction that conforms. -/
theorem keepsTo_call (h : tx.Conforms tables) (hkeys : db.KeysIn tables) (call : Call) :
    Run.KeepsTo tables.Admits (fun tx' => tx'.Conforms tables) (call.run db tx) := by
  cases call with
  | create model data =>
    refine .ofExcept fun tx' hresult => ?_
    obtain ⟨created, hcreate, rfl⟩ := exists_of_map_eq_ok hresult
    exact h.create hkeys hcreate
  | update model conditions patch =>
    exact (keepsTo_update h hkeys patch).bind fun result hresult => .pure hresult
  | delete model conditions => exact .ofExcept fun tx' hresult => h.delete hkeys hresult

theorem asks_findOne_admitted (tx : Transaction) (q : FindQuery) :
    Run.Asks tables.Admits (tx.findOne db q) := by
  refine .ofExcept_bind fun table _ => .ofExcept_bind fun normalized _ =>
    .ofExcept_bind fun own _ => ?_
  cases own with
  | some row => exact .pure _
  | none =>
    refine (Database.asks_findOne_admitted q).bind fun found => ?_
    cases found with
    | none => exact .pure _
    | some row => exact .ofExcept_bind fun keys _ => .ofExcept_bind fun key _ => .ofExcept _

/-- A commit sends the buffered writes, or nothing. -/
theorem Conforms.asks_commit (h : tx.Conforms tables) (db : Database) (token : String) :
    Run.Asks tables.Admits (tx.commit db token) := by
  refine Dialogue.Asks.bind ?_ fun _ => trivial
  unfold WriteBuffer.commit
  split
  · trivial
  · split
    · trivial
    · refine Dialogue.Asks.bind (Run.Asks.request (φ := tables.Admits) _ h.writes) fun answer => ?_
      cases answer <;> trivial

end Transaction

end KeyedQuery
