import KeyedQuery.Proofs.Transaction.Conduct

/-!
# Parties at one store

Several parties use one store, each through a database of its own and with a transaction that it opens and
commits. A `Party` carries out one `Operation` after another, and the parties take turns with single
requests, in any order. However they do, and whether their requests succeed, are refused or meet failures,
every row keeps a full key and no two rows of a table have one key. Rows whose keys no write names are left
alone, in value and in order, in every table whose name does not continue that of another one behind a
slash (`Party.takeTurns_keeps_rows`). For the names of two tables that continue each other
`Party.not_takeTurns_keeps_rows` is a transaction that replaces a row whose key it does not name.
-/

namespace KeyedQuery

/-! ## Operations -/

/-- What a party may do next. -/
inductive Operation where
  /-- Create a row. -/
  | create (model : String) (data : Item)
  /-- Put a patch over the first row that satisfies conditions. -/
  | update (model : String) (conditions : List Condition) (patch : Item)
  /-- Delete all rows that satisfy conditions. -/
  | delete (model : String) (conditions : List Condition)
  /-- Look for rows. -/
  | find (q : FindQuery)
  /-- Look for a row in the open transaction. -/
  | look (q : FindQuery)
  /-- Make a call of the open transaction. -/
  | stage (call : Transaction.Call)
  /-- Commit the open transaction, and open another one. -/
  | commit (token : String)
  /-- Drop the open transaction, and open another one. -/
  | abort

namespace Operation

/-- Carry out an operation, whatever comes of it, and end with the transaction that is open then. A call
that fails leaves the transaction as it was. -/
def perform (db : Database) (tx : Transaction) : Operation → Dialogue Transaction
  | .create model data => (fun _ => tx) <$> (db.create model data).run
  | .update model conditions patch => (fun _ => tx) <$> (db.update model conditions patch).run
  | .delete model conditions => (fun _ => tx) <$> (db.delete model conditions).run
  | .find q => (fun _ => tx) <$> (db.findMany q).run
  | .look q => (fun _ => tx) <$> (tx.findOne db q).run
  | .stage call => do
    match ← (call.run db tx).run with
    | .ok next => pure next
    | .error _ => pure tx
  | .commit token => (fun _ => {}) <$> (tx.commit db token).run
  | .abort => pure {}

/-- Carry out operations one after another. -/
def performAll (db : Database) : Transaction → List Operation → Dialogue Transaction
  | tx, [] => pure tx
  | tx, op :: ops => do
    let next ← op.perform db tx
    performAll db next ops

variable {tables : Fields Table} {db : Database} {tx : Transaction}

/-- An operation sends only writes that the tables accept, and leaves a transaction that conforms. -/
theorem keepsTo_perform (h : tx.Conforms tables) (hkeys : db.KeysIn tables) (op : Operation) :
    (op.perform db tx).KeepsTo tables.Admits fun next => next.Conforms tables := by
  have hdone : ∀ {α : Type} {next : Transaction} {p : Run α}, next.Conforms tables →
      Run.Asks tables.Admits p →
      ((fun _ => next) <$> p.run : Dialogue Transaction).KeepsTo tables.Admits
        fun next => next.Conforms tables := fun hnext hp =>
    (Dialogue.KeepsTo.of_asks (Q := fun _ => True) hp fun _ => trivial).bind fun _ _ => hnext
  cases op with
  | create model data => exact hdone h (Database.asks_create_accepted hkeys model data)
  | update model conditions patch =>
    exact hdone h (Database.asks_update_accepted hkeys model conditions patch)
  | delete model conditions => exact hdone h (Database.asks_delete_accepted hkeys model conditions)
  | find q => exact hdone h ((Database.asks_findMany_reads q).mono fun _ => Fields.admits_of_reads)
  | look q => exact hdone h (tx.asks_findOne_admitted q)
  | stage call =>
    refine Dialogue.KeepsTo.bind (Transaction.keepsTo_call h hkeys call) fun result hresult => ?_
    cases result with
    | ok next => exact hresult next rfl
    | error fault => exact h
  | commit token => exact hdone (Transaction.conforms_empty tables) (h.asks_commit db token)
  | abort => exact Transaction.conforms_empty tables

theorem keepsTo_performAll (hkeys : db.KeysIn tables) :
    ∀ {ops : List Operation} {tx : Transaction}, tx.Conforms tables →
      (performAll db tx ops).KeepsTo tables.Admits fun next => next.Conforms tables
  | [], _, h => h
  | op :: _, _, h => (keepsTo_perform h hkeys op).bind fun _ hnext => keepsTo_performAll hkeys hnext

end Operation

/-! ## Parties -/

/-- A database, and what is done with it, one operation after another. -/
structure Party where
  /-- The database. -/
  db : Database
  /-- The operations, in order. -/
  operations : List Operation

/-- What the party does, from a new transaction on. -/
def Party.dialogue (p : Party) : Dialogue Transaction :=
  Operation.performAll p.db {} p.operations

/-! ## Seeded tables -/

namespace Memory

variable {m : Memory} {name : String} {t : Table}

/-- Rows of full keys that are seeded keep tables of such rows. -/
theorem fullyKeyed_seed (h : ∀ name t, Fields.get? m.tables name = some t → t.FullyKeyed)
    {table : String} {values : List Value} (hvalues : ∀ t, Fields.get? m.tables table = some t →
      ∀ item, .map item ∈ values → t.keys.IsIn item)
    (ht : Fields.get? (m.seed table values).tables name = some t) : t.FullyKeyed := by
  unfold seed at ht
  split at ht
  · rename_i old hold
    change Fields.get? (Fields.insert m.tables table _) name = some t at ht
    rw [Fields.get?_insert] at ht
    split at ht
    · obtain rfl := Option.some.inj ht
      refine (List.foldlRecOn (motive := fun filled : Table =>
        filled.keys = old.keys ∧ filled.FullyKeyed) values _ ⟨rfl, h table old hold⟩
        fun filled hfilled v hv => ?_).2
      obtain ⟨hkeys, hfilled⟩ := hfilled
      split
      · exact ⟨(filled.upsert_keys _).trans hkeys,
          hfilled.upsert (hkeys ▸ hvalues old hold _ hv)⟩
      · exact ⟨hkeys, hfilled⟩
    · exact h name t ht
  · exact h name t ht

/-- A fresh memory of a schema with some rows. -/
def ofSeeds (s : Schema) (pageSize : Option Nat) (seeds : List (String × List Value)) : Memory :=
  seeds.foldl (fun m seed => m.seed seed.1 seed.2) (ofSchema s pageSize)

/-- If all rows that are seeded have full keys, the memory is one of the schema, and its tables are of
rows with full keys. -/
theorem isOf_ofSeeds {s : Schema} (hs : s.TablesApart) (pageSize : Option Nat)
    {seeds : List (String × List Value)} (hseeds : ∀ seed ∈ seeds, ∀ d ∈ s.definitions,
      d.table = seed.1 → ∀ item, .map item ∈ seed.2 → d.primaryKey.IsIn item) :
    (ofSeeds s pageSize seeds).IsOf s ∧
      ∀ name t, Fields.get? (ofSeeds s pageSize seeds).tables name = some t → t.FullyKeyed := by
  unfold ofSeeds
  refine List.foldlRecOn (motive := fun m : Memory => m.IsOf s ∧
    ∀ name t, Fields.get? m.tables name = some t → t.FullyKeyed) seeds _
    ⟨isOf_ofSchema s pageSize, fun _ _ ht => .of_items_eq_nil (items_ofSchema ht)⟩
    fun m hm seed hseed => ⟨hm.1.seed _ _, fun name t ht => ?_⟩
  refine fullyKeyed_seed hm.2 (fun u hu item hitem => ?_) ht
  obtain ⟨d, hd, hname, hof⟩ := hm.1.exists_definition hs hu
  rw [hof.keys_eq]
  exact hseeds seed hseed d hd hname item hitem

end Memory

/-! ## Turns -/

/-- Parties that take turns leave what the writes that they have sent may make of the tables. -/
theorem Party.evolves_takeTurns {w : World Memory} {parties : List Party}
    (hkeyed : ∀ name t, Fields.get? w.store.tables name = some t → t.FullyKeyed)
    (hrequests : w.requests = []) (hkeys : ∀ p ∈ parties, p.db.KeysIn w.store.tables)
    (turns : List Nat) :
    let after := (Dialogue.takeTurns Memory.receive turns (parties.map Party.dialogue) w).2
    w.store.tables.Evolves (after.requests.flatMap Request.writes) after.store.tables := by
  have hkeeps : ∀ p ∈ parties.map Party.dialogue,
      p.KeepsTo w.store.tables.Admits fun tx => tx.Conforms w.store.tables := by
    intro dialogue hdialogue
    obtain ⟨p, hp, rfl⟩ := List.mem_map.mp hdialogue
    exact Operation.keepsTo_performAll (hkeys p hp) (Transaction.conforms_empty _)
  refine Dialogue.KeepsTo.takeTurns (J := fun (m : Memory) requests =>
    w.store.tables.Evolves (requests.flatMap Request.writes) m.tables)
    (fun r m sent hr hm => ?_) turns hkeeps ?_
  · rw [List.flatMap_append, List.flatMap_singleton]
    exact hm.receive hr
  · rw [hrequests]
    exact .refl hkeyed

/-- Parties take turns at a store whose tables back one model each, with seeded rows of full keys. At
any time every row of every table has a value other than null for each key attribute, and the key
attributes of no two rows of a table agree. If no other table's name continues the name of a table behind
a slash and it continues none, the rows whose keys no write so far has named are the same rows as at
first, in the same order. -/
theorem Party.takeTurns_keeps_rows {s : Schema} (hs : s.TablesApart) {pageSize : Option Nat}
    {seeds : List (String × List Value)} (hseeds : ∀ seed ∈ seeds, ∀ d ∈ s.definitions,
      d.table = seed.1 → ∀ item, .map item ∈ seed.2 → d.primaryKey.IsIn item)
    {w : World Memory} (hstore : w.store.tables = (Memory.ofSeeds s pageSize seeds).tables)
    (hrequests : w.requests = []) {parties : List Party}
    (hparties : ∀ p ∈ parties, p.db.resolver = s.resolver) (turns : List Nat)
    {d : ModelDef} (hd : d ∈ s.definitions) :
    let after := (Dialogue.takeTurns Memory.receive turns (parties.map Party.dialogue) w).2
    (∀ row ∈ after.store.items d.table, d.primaryKey.IsIn row) ∧
      ((after.store.items d.table).Pairwise fun a b => d.primaryKey.agree a b = false) ∧
      ((∀ e ∈ s.definitions, ¬IsBelow e.table d.table ∧ ¬IsBelow d.table e.table) →
        let spared := Fields.spared d.table d.primaryKey (after.requests.flatMap Request.writes)
        (after.store.items d.table).filter spared = (w.store.items d.table).filter spared) := by
  intro after
  obtain ⟨hof, hkeyed⟩ := Memory.isOf_ofSeeds hs pageSize hseeds
  have hevolves : w.store.tables.Evolves (after.requests.flatMap Request.writes)
      after.store.tables := by
    refine Party.evolves_takeTurns (hstore ▸ hkeyed) hrequests (fun p hp => ?_) turns
    rw [hstore]
    exact Database.keysIn hs hof (hparties p hp)
  obtain ⟨t, ht, htd⟩ := hof.exists_table_of_mem hs hd
  rw [← hstore] at ht
  obtain ⟨u, hu, hkeys, hfull, hsame⟩ := hevolves d.table t ht
  have hitems : after.store.items d.table = u.items := by rw [Memory.items, hu]; rfl
  have hbefore : w.store.items d.table = t.items := by rw [Memory.items, ht]; rfl
  have hprimary : u.keys = d.primaryKey := hkeys.trans htd.keys_eq
  rw [hitems, hbefore]
  refine ⟨hprimary ▸ hfull.isIn, ?_, fun hapart => ?_⟩
  · refine hfull.apart.imp_of_mem fun {a b} _ hb hab => ?_
    rw [← hprimary, ← Table.sameKey_eq_agree (Table.carries_of_isIn (hfull.isIn b hb))]
    exact hab
  · rw [← htd.keys_eq]
    refine hsame fun other hother => ?_
    obtain ⟨v, hv⟩ := Option.isSome_iff_exists.mp hother
    obtain ⟨e, he, rfl, -⟩ := hof.exists_definition hs (hstore ▸ hv)
    exact hapart e he

/-- While one party gives ada another name in a transaction, another one creates cy and deletes ada. Bob
is left alone. -/
theorem Party.takeTurns_keeps_rows_users :
    let user : ModelDef := { name := "user", table := "users", primaryKey := { partition := "id" } }
    let s : Schema := .ofModels [user]
    let bob : Item := [("id", .num (.int 2)), ("name", .str "bob")]
    let seeds : List (String × List Value) :=
      [("users", [.map [("id", .num (.int 1)), ("name", .str "ada")], .map bob])]
    let db : Database := { resolver := s.resolver, horizon := 1 }
    let parties : List Party :=
      [⟨db, [.stage (.update "user" [⟨"id", none, .num (.int 1), none⟩] [("name", .str "eve")]),
        .commit "t"]⟩,
      ⟨db, [.create "user" [("id", .num (.int 3)), ("name", .str "cy")],
        .delete "user" [⟨"id", none, .num (.int 1), none⟩]]⟩]
    let after := (Dialogue.takeTurns Memory.receive [0, 1, 0, 1, 1, 0, 0, 1, 1, 1]
      (parties.map Party.dialogue) { store := Memory.ofSeeds s none seeds }).2
    after.requests.length = 5 ∧
      after.store.items "users" = [bob, [("id", .num (.int 3)), ("name", .str "cy")]] ∧
      (after.store.items "users").Pairwise (fun a b => user.primaryKey.agree a b = false) ∧
      (after.store.items "users").filter (Fields.spared "users" user.primaryKey
        (after.requests.flatMap Request.writes)) = [bob] := by
  intro user s bob seeds db parties after
  have hs : s.TablesApart := by
    unfold Schema.TablesApart
    decide +kernel
  have hseeds : ∀ seed ∈ seeds, ∀ d ∈ s.definitions, d.table = seed.1 →
      ∀ item, .map item ∈ seed.2 → d.primaryKey.IsIn item := by
    have hkeys : ∀ d ∈ s.definitions, d.primaryKey.attributes = ["id"] := by decide +kernel
    intro seed hseed d hd _ item hitem a ha
    rw [hkeys d hd, List.mem_singleton] at ha
    subst ha
    obtain rfl := List.mem_singleton.mp hseed
    simp only [List.mem_cons, List.not_mem_nil, or_false, Value.map.injEq] at hitem
    rcases hitem with rfl | rfl <;> rfl
  have hparties : ∀ p ∈ parties, p.db.resolver = s.resolver := by
    intro p hp
    simp only [parties, List.mem_cons, List.not_mem_nil, or_false] at hp
    rcases hp with rfl | rfl <;> rfl
  obtain ⟨-, happart, hsame⟩ := Party.takeTurns_keeps_rows hs hseeds
    (w := { store := Memory.ofSeeds s none seeds }) rfl rfl hparties
    [0, 1, 0, 1, 1, 0, 0, 1, 1, 1] (d := user) (by decide +kernel)
  refine ⟨by decide +kernel, by decide +kernel, happart, ?_⟩
  exact (hsame (by decide +kernel)).trans (by decide +kernel)

/-- An update of one model's row takes over the changes that are staged for a row of another model, because
both rows have one text for the open transaction. The key is changed along with them, so the commit
stores the row of the first model over another one, whose key no write names. -/
theorem Party.not_takeTurns_keeps_rows :
    let outer : ModelDef :=
      { name := "a", table := "a", primaryKey := { partition := "pk", sort := some "sk" } }
    let inner : ModelDef := { name := "b", table := "a/n:5", primaryKey := { partition := "id" } }
    let s : Schema := .ofModels [outer, inner]
    let five : Item := [("pk", .num (.int 5)), ("sk", .str "c"), ("v", .str "five")]
    let seven : Item := [("pk", .num (.int 7)), ("sk", .str "c"), ("v", .str "seven")]
    let seeds : List (String × List Value) :=
      [("a", [.map five, .map seven]),
      ("a/n:5", [.map [("id", .str "c"), ("pk", .num (.int 3)), ("sk", .str "c")]])]
    let w : World Memory := { store := Memory.ofSeeds s none seeds }
    let party : Party :=
      { db := { resolver := s.resolver, horizon := 1 }
        operations := [
          .stage (.update "b" [⟨"id", none, .str "c", none⟩] [("pk", .num (.int 5))]),
          .stage (.update "a" [⟨"pk", none, .num (.int 5), none⟩, ⟨"sk", none, .str "c", none⟩]
            [("v", .str "x")]),
          .commit "t"] }
    let after := (Dialogue.takeTurns Memory.receive (List.replicate 20 0) [party.dialogue] w).2
    let spared := Fields.spared "a" outer.primaryKey (after.requests.flatMap Request.writes)
    s.TablesApart ∧ (w.store.items "a").filter spared = [seven] ∧
      after.store.items "a" = [five, [("pk", .num (.int 7)), ("sk", .str "c"), ("v", .str "x")]] ∧
      (after.store.items "a").filter spared ≠ (w.store.items "a").filter spared := by
  intro outer inner s five seven seeds w party after spared
  refine ⟨?_, by decide +kernel, by decide +kernel, by decide +kernel⟩
  unfold Schema.TablesApart
  decide +kernel

end KeyedQuery
