import OpenDB.Storage.TableReuse

/-!
# Tables and columns on every shard

Creating and dropping a table and changing its columns is a call to the shards one after the other,
and then a change of the registry. A shard that refuses ends the call; the shards before it keep what
they have done, and so do all of them when it is the registry that refuses.

`SchemaKeeper` is a provider that a shard can be: a call that it refuses leaves its schemas as they
are, and one that it accepts changes them. Both providers that keep rows themselves are schema
keepers, and shards of different kinds can stand side by side (`SchemaKeeper.either`). Over such
shards a call that fails changes nothing if and only if no shard has accepted it
(`ddl_unchanged_iff`).
-/

set_option autoImplicit false

namespace OpenDB

open OpenDB.Library

/-- The calls of a provider that change tables and columns. -/
inductive DdlCall where
  | createTable (schema : Schema)
  | dropTable (name : Bytes)
  | alterTable (name : Bytes) (spec : AlterSpec)

/-- The call, made to a provider. -/
def DdlCall.exec {σ : Type} (P : StorageProvider σ) : DdlCall → EStateM Fault σ DbError
  | .createTable schema => P.createTable schema
  | .dropTable name => P.dropTable name
  | .alterTable name spec => P.alterTable name spec

/-- A provider with the schemas of its tables. They are as they were exactly when it has refused. -/
structure SchemaKeeper where
  State : Type
  provider : StorageProvider State
  schemas : State → Bytes → Option Schema
  unchanged_iff : ∀ {c : DdlCall} {s s' : State} {r : DbError},
    (c.exec provider).run s = .ok r s' → (schemas s' = schemas s ↔ r.isSentinel = false)

/-! ## Schemas that change -/

section

variable {schemas schemas' : Bytes → Option Schema} {r : DbError}

theorem unchanged_iff_of_eq (h : schemas' = schemas) (hr : r.isSentinel = false) :
    schemas' = schemas ↔ r.isSentinel = false :=
  iff_of_true h hr

theorem unchanged_iff_of_ne (name : Bytes) (h : schemas' name ≠ schemas name)
    (hr : r.isSentinel = true) :
    schemas' = schemas ↔ r.isSentinel = false := by
  refine iff_of_false (fun heq => h (congrFun heq name)) ?_
  rw [hr]
  exact Bool.true_eq_false_eq_False

/-- An added column makes another schema. -/
theorem Schema.ne_addColumn (schema : Schema) (columnDef : ColumnDef) :
    ({ schema with columns := schema.columns ++ [columnDef] } : Schema) ≠ schema := by
  intro heq
  have hlength := congrArg (fun schema => schema.columns.length) heq
  rw [List.length_append, List.length_singleton] at hlength
  omega

/-- So does a column that is found and erased. -/
theorem Schema.ne_dropColumn {schema : Schema} {column : Bytes}
    (h : ¬ (schema.find column).isNone = true) :
    ({ schema with columns := schema.columns.eraseP fun c => c.name = column } : Schema) ≠ schema := by
  obtain ⟨c, hfind⟩ := Option.isSome_iff_exists.1 (Option.isSome_iff_ne_none.2 fun hnone =>
    h (Option.isNone_iff_eq_none.2 hnone))
  have hmem := List.mem_of_find?_eq_some hfind
  have hname := List.find?_some hfind
  -- the erased column leaves the list shorter
  intro heq
  have hlength := congrArg (fun schema => schema.columns.length) heq
  rw [List.length_eraseP_of_mem hmem hname] at hlength
  have hpos := List.length_pos_of_mem hmem
  omega

end

/-! ## The in-memory provider -/

namespace InMemory

variable {s : InMemoryStore}

theorem unchanged_createTable_iff (schema : Schema) (s : InMemoryStore) :
    (createTable schema s).2.schemas.find = s.schemas.find ↔
      (createTable schema s).1.isSentinel = false := by
  rw [createTable]
  split_ifs with hsome
  · exact unchanged_iff_of_eq rfl (DbError.isSentinel_tableExists _)
  · split
    · exact unchanged_iff_of_eq rfl (by simp [DbError.isSentinel, DbError.notSupported, ascii])
    · apply unchanged_iff_of_ne schema.table _ rfl
      rw [AssocMap.find_assign_self, Option.not_isSome_iff_eq_none.1 hsome]
      exact Option.some_ne_none _

theorem unchanged_dropTable_iff (name : Bytes) (s : InMemoryStore) :
    (dropTable name s).2.schemas.find = s.schemas.find ↔
      (dropTable name s).1.isSentinel = false := by
  rw [dropTable]
  split_ifs with hsome
  · apply unchanged_iff_of_ne name _ rfl
    rw [AssocMap.find_erase_self]
    intro hnone
    rw [← hnone] at hsome
    cases hsome
  · exact unchanged_iff_of_eq rfl (DbError.isSentinel_tableNotFound _)

theorem unchanged_alterTable_iff (name : Bytes) (spec : AlterSpec) (s : InMemoryStore) :
    (alterTable name spec s).2.schemas.find = s.schemas.find ↔
      (alterTable name spec s).1.isSentinel = false := by
  rw [alterTable]
  cases hfind : s.schemas.find name with
  | none => exact unchanged_iff_of_eq rfl (DbError.isSentinel_tableNotFound _)
  | some schema =>
    cases spec with
    | addColumn columnDef =>
      dsimp only
      split_ifs with hcolumn
      · exact unchanged_iff_of_eq rfl (by simp [DbError.isSentinel, DbError.internal, ascii])
      · apply unchanged_iff_of_ne name _ rfl
        rw [AssocMap.find_assign_self, hfind]
        exact fun heq => schema.ne_addColumn columnDef (Option.some.inj heq)
    | dropColumn column =>
      dsimp only
      split_ifs with hcolumn
      · exact unchanged_iff_of_eq rfl (by simp [DbError.isSentinel, DbError.notFound, ascii])
      · apply unchanged_iff_of_ne name _ rfl
        rw [AssocMap.find_assign_self, hfind]
        exact fun heq => Schema.ne_dropColumn hcolumn (Option.some.inj heq)
    | renameTable newName =>
      dsimp only
      -- the new name was free before, and is taken after
      split_ifs with hempty hnew
      · exact unchanged_iff_of_eq rfl (by simp [DbError.isSentinel, DbError.internal, ascii])
      · exact unchanged_iff_of_eq rfl (DbError.isSentinel_tableExists _)
      · apply unchanged_iff_of_ne newName _ rfl
        rw [AssocMap.find_assign_self, Option.not_isSome_iff_eq_none.1 hnew]
        exact Option.some_ne_none _

/-- The in-memory provider. -/
def schemaKeeper : SchemaKeeper where
  State := InMemoryStore
  provider := provider
  schemas s := s.schemas.find
  unchanged_iff := by
    rintro c s s' r h
    cases c with
    | createTable schema =>
      cases h
      exact unchanged_createTable_iff schema s
    | dropTable name =>
      cases h
      exact unchanged_dropTable_iff name s
    | alterTable name spec =>
      cases h
      exact unchanged_alterTable_iff name spec s

end InMemory

/-! ## The file-backed provider -/

namespace LocalFileStorageProvider

variable {s s' : LocalFileStorageProvider} {r : DbError}

theorem tables_onTree {α : Type} {table : Bytes} {x : EStateM Fault BTree α} {a : α}
    (h : (onTree table x).run s = .ok a s') : s'.tables = s.tables := by
  change onTree table x s = _ at h
  rw [onTree] at h
  split at h
  · split at h <;> cases h
    rfl
  · cases h

/-- The end of a call that has changed the registry. -/
theorem tables_of_saved (h : (do
      saveMetadata
      return DbError.sentinel : EStateM Fault LocalFileStorageProvider DbError).run s = .ok r s') :
    s'.tables = s.tables ∧ r.isSentinel = true := by
  obtain ⟨u, t, hsave, hlast⟩ := run_bind_eq_ok.1 h
  cases hlast
  exact ⟨tables_saveMetadata hsave, rfl⟩

theorem unchanged_createTable_iff {schema : Schema} (h : (createTable schema).run s = .ok r s') :
    s'.describeTable = s.describeTable ↔ r.isSentinel = false := by
  rw [createTable] at h
  rw [EStateM.run_bind, EStateM.run_get] at h
  dsimp only at h
  split_ifs at h with hopen hsome
  · cases h
    exact unchanged_iff_of_eq rfl DbError.isSentinel_notOpen
  · cases h
    exact unchanged_iff_of_eq rfl (DbError.isSentinel_tableExists _)
  · split at h
    · cases h
      exact unchanged_iff_of_eq rfl (by simp [DbError.isSentinel, ascii])
    · split at h
      · -- without a page for the root the call throws, and returns nothing
        obtain ⟨u, t, -, hthrow⟩ := run_bind_eq_ok.1 h
        cases hthrow
      · obtain ⟨u, t, hset, hrest⟩ := run_bind_eq_ok.1 h
        cases hset
        -- the registry has the table before the metadata are saved
        obtain ⟨htables, hr⟩ := tables_of_saved hrest
        apply unchanged_iff_of_ne schema.table _ hr
        rw [describeTable, htables, describeTable, AssocMap.find_assign_self,
          Option.not_isSome_iff_eq_none.1 hsome]
        exact Option.some_ne_none _

/-- The end of a drop, once the pages of the tree are free. -/
theorem unchanged_dropped_iff {t : LocalFileStorageProvider} {name : Bytes}
    (htables : t.tables = s.tables) (hsome : ¬ (s.tables.find name).isNone = true)
    (h : (do
      modify fun s => { s with tables := s.tables.erase name, btrees := s.btrees.erase name }
      saveMetadata
      return DbError.sentinel : EStateM Fault LocalFileStorageProvider DbError).run t = .ok r s') :
    s'.describeTable = s.describeTable ↔ r.isSentinel = false := by
  rw [EStateM.run_bind, EStateM.run_modify] at h
  obtain ⟨hsaved, hr⟩ := tables_of_saved h
  apply unchanged_iff_of_ne name _ hr
  rw [describeTable, hsaved, htables, describeTable, AssocMap.find_erase_self]
  intro hnone
  exact hsome (Option.isNone_iff_eq_none.2 (Option.map_eq_none_iff.1 hnone.symm))

theorem unchanged_dropTable_iff {name : Bytes} (h : (dropTable name).run s = .ok r s') :
    s'.describeTable = s.describeTable ↔ r.isSentinel = false := by
  rw [dropTable] at h
  rw [EStateM.run_bind, EStateM.run_get] at h
  dsimp only at h
  split_ifs at h with hopen hnone htree
  · cases h
    exact unchanged_iff_of_eq rfl DbError.isSentinel_notOpen
  · cases h
    exact unchanged_iff_of_eq rfl (DbError.isSentinel_tableNotFound _)
  · obtain ⟨u, t, hfree, hrest⟩ := run_bind_eq_ok.1 h
    exact unchanged_dropped_iff (tables_onTree hfree) hnone hrest
  · exact unchanged_dropped_iff rfl hnone h

/-- The end of a change of the columns of a table. -/
theorem unchanged_altered_iff {name : Bytes} {info : TableInfo} {schema : Schema}
    (hfind : s.tables.find name = some info) (hne : schema ≠ info.schema)
    (h : (do
      set { s with tables := s.tables.assign name { info with schema := schema } }
      saveMetadata
      return DbError.sentinel : EStateM Fault LocalFileStorageProvider DbError).run s = .ok r s') :
    s'.describeTable = s.describeTable ↔ r.isSentinel = false := by
  rw [EStateM.run_bind, EStateM.run_set] at h
  obtain ⟨hsaved, hr⟩ := tables_of_saved h
  apply unchanged_iff_of_ne name _ hr
  rw [describeTable, hsaved, describeTable, AssocMap.find_assign_self, hfind]
  exact fun heq => hne (Option.some.inj heq)

theorem unchanged_alterTable_iff {name : Bytes} {spec : AlterSpec}
    (h : (alterTable name spec).run s = .ok r s') :
    s'.describeTable = s.describeTable ↔ r.isSentinel = false := by
  rw [alterTable] at h
  rw [EStateM.run_bind, EStateM.run_get] at h
  dsimp only at h
  split_ifs at h with hopen
  · cases h
    exact unchanged_iff_of_eq rfl DbError.isSentinel_notOpen
  cases hfind : s.tables.find name with
  | none =>
    rw [hfind] at h
    cases h
    exact unchanged_iff_of_eq rfl (DbError.isSentinel_tableNotFound _)
  | some info =>
    rw [hfind] at h
    cases spec with
    | addColumn columnDef =>
      dsimp only at h
      split_ifs at h with hcolumn
      · cases h
        exact unchanged_iff_of_eq rfl (by simp [DbError.isSentinel, ascii])
      · exact unchanged_altered_iff hfind (info.schema.ne_addColumn columnDef) h
    | dropColumn column =>
      dsimp only at h
      split_ifs at h with hcolumn
      · cases h
        exact unchanged_iff_of_eq rfl (by simp [DbError.isSentinel, ascii])
      · exact unchanged_altered_iff hfind (Schema.ne_dropColumn hcolumn) h
    | renameTable newName =>
      dsimp only at h
      split_ifs at h with hempty hnew
      · cases h
        exact unchanged_iff_of_eq rfl (by simp [DbError.isSentinel, ascii])
      · cases h
        exact unchanged_iff_of_eq rfl (DbError.isSentinel_tableExists _)
      · rw [EStateM.run_bind, EStateM.run_set] at h
        obtain ⟨hsaved, hr⟩ := tables_of_saved h
        -- the new name was free and is taken now
        apply unchanged_iff_of_ne newName _ hr
        rw [describeTable, hsaved, describeTable, AssocMap.find_assign_self,
          Option.not_isSome_iff_eq_none.1 hnew]
        exact Option.some_ne_none _

/-- The file-backed provider. -/
def schemaKeeper : SchemaKeeper where
  State := LocalFileStorageProvider
  provider := provider
  schemas := describeTable
  unchanged_iff := by
    rintro c s s' r h
    cases c with
    | createTable schema => exact unchanged_createTable_iff h
    | dropTable name => exact unchanged_dropTable_iff h
    | alterTable name spec => exact unchanged_alterTable_iff h

end LocalFileStorageProvider

/-! ## Shards of two kinds -/

/-- A call of a store of one kind or the other. -/
def onEither {σ τ α : Type} (x : EStateM Fault σ α) (y : EStateM Fault τ α) :
    EStateM Fault (σ ⊕ τ) α
  | .inl s =>
    match x.run s with
    | .ok a s' => .ok a (.inl s')
    | .error e s' => .error e (.inl s')
  | .inr t =>
    match y.run t with
    | .ok a t' => .ok a (.inr t')
    | .error e t' => .error e (.inr t')

/-- The calls go to the kind that the store is of. -/
def StorageProvider.either {σ τ : Type} (P : StorageProvider σ) (Q : StorageProvider τ) :
    StorageProvider (σ ⊕ τ) where
  scan txn table := onEither (P.scan txn table) (Q.scan txn table)
  put txn table key row := onEither (P.put txn table key row) (Q.put txn table key row)
  remove txn table key := onEither (P.remove txn table key) (Q.remove txn table key)
  prepare txn := onEither (P.prepare txn) (Q.prepare txn)
  commit txn seq := onEither (P.commit txn seq) (Q.commit txn seq)
  abort txn := onEither (P.abort txn) (Q.abort txn)
  createTable schema := onEither (P.createTable schema) (Q.createTable schema)
  dropTable name := onEither (P.dropTable name) (Q.dropTable name)
  alterTable name spec := onEither (P.alterTable name spec) (Q.alterTable name spec)
  describeTable name := onEither (P.describeTable name) (Q.describeTable name)

theorem run_onEither_ok {σ τ α : Type} {x : EStateM Fault σ α} {y : EStateM Fault τ α} {a : α}
    {s s' : σ ⊕ τ} (h : (onEither x y).run s = .ok a s') :
    (∃ t t', s = .inl t ∧ s' = .inl t' ∧ x.run t = .ok a t') ∨
      ∃ t t', s = .inr t ∧ s' = .inr t' ∧ y.run t = .ok a t' := by
  cases s with
  | inl t =>
    change onEither x y (.inl t) = _ at h
    rw [onEither] at h
    cases hx : x.run t with
    | error e t' =>
      rw [hx] at h
      cases h
    | ok b t' =>
      rw [hx] at h
      cases h
      exact Or.inl ⟨t, t', rfl, rfl, hx⟩
  | inr t =>
    change onEither x y (.inr t) = _ at h
    rw [onEither] at h
    cases hy : y.run t with
    | error e t' =>
      rw [hy] at h
      cases h
    | ok b t' =>
      rw [hy] at h
      cases h
      exact Or.inr ⟨t, t', rfl, rfl, hy⟩

theorem DdlCall.exec_either {σ τ : Type} (P : StorageProvider σ) (Q : StorageProvider τ)
    (c : DdlCall) : c.exec (P.either Q) = onEither (c.exec P) (c.exec Q) := by
  cases c <;> rfl

/-- Stores of two kinds side by side. -/
def SchemaKeeper.either (K L : SchemaKeeper) : SchemaKeeper where
  State := K.State ⊕ L.State
  provider := K.provider.either L.provider
  schemas := Sum.elim K.schemas L.schemas
  unchanged_iff := by
    intro c s s' r h
    rw [DdlCall.exec_either] at h
    rcases run_onEither_ok h with ⟨t, t', rfl, rfl, ht⟩ | ⟨t, t', rfl, rfl, ht⟩
    · exact K.unchanged_iff ht
    · exact L.unchanged_iff ht

/-! ## The sharded provider -/

namespace ShardedStorageProvider

/-- The call, made to the sharded provider. -/
def ddl {σ : Type} (P : StorageProvider σ) (vocabulary : ValueType → Bool) :
    DdlCall → EStateM Fault (ShardedStorageProvider σ) DbError
  | .createTable schema => createTable P vocabulary schema
  | .dropTable name => dropTable P name
  | .alterTable name spec => alterTable P name spec

/-- The tables and schemas of every shard and of the registry are as they were. -/
structure Unchanged (K : SchemaKeeper) (s s' : ShardedStorageProvider K.State) : Prop where
  shards : List.Forall₂ (fun c c' => K.schemas c' = K.schemas c) s.shards s'.shards
  registry : s'.describeTable = s.describeTable

/-- The call passes the checks of the sharded provider and goes on to the shards. -/
def Reaches {σ : Type} (vocabulary : ValueType → Bool) (s : ShardedStorageProvider σ) :
    DdlCall → Prop
  | .createTable schema => s.opened = true ∧
      (∀ col ∈ schema.columns, s.accepts vocabulary col.type = true) ∧
        s.hashPartitionError schema = none
  | .dropTable _ => s.opened = true
  | .alterTable _ (.renameTable _) => False
  | .alterTable _ _ => s.opened = true

/-- There are no shards, or the first one refuses the call. -/
def FirstRefuses {σ : Type} (P : StorageProvider σ) (c : DdlCall) : List σ → Prop
  | [] => True
  | shard :: _ => ∃ e shard', (c.exec P).run shard = .ok e shard' ∧ e.isSentinel = false

section

variable {σ : Type} {P : StorageProvider σ} {vocabulary : ValueType → Bool} {c : DdlCall}
  {s s' : ShardedStorageProvider σ} {r : DbError}

theorem unchanged_self (K : SchemaKeeper) (s : ShardedStorageProvider K.State) : Unchanged K s s :=
  ⟨List.forall₂_same.2 fun _ _ => rfl, rfl⟩

/-- The loop over the shards: the first refuses, or it accepts and the others follow. -/
theorem eachShard_cons_cases {call : EStateM Fault σ DbError} {shard : σ} {shards shards' : List σ}
    (h : eachShard call (shard :: shards) = .ok r shards') :
    ∃ e shard', call.run shard = .ok e shard' ∧
      (e.isSentinel = false ∧ r = e ∧ shards' = shard' :: shards ∨
        e.isSentinel = true ∧ ∃ rest, shards' = shard' :: rest) := by
  rw [eachShard] at h
  cases hcall : call.run shard with
  | error e shard' =>
    rw [hcall] at h
    cases h
  | ok e shard' =>
    rw [hcall] at h
    refine ⟨e, shard', rfl, ?_⟩
    dsimp only at h
    split_ifs at h with he
    · cases hrest : eachShard call shards with
      | error e' rest =>
        rw [hrest] at h
        cases h
      | ok e' rest =>
        rw [hrest] at h
        cases h
        exact Or.inr ⟨he, rest, rfl⟩
    · cases h
      exact Or.inl ⟨Bool.eq_false_iff.2 he, rfl, rfl⟩

/-- A call of all shards touches nothing but the shards. -/
theorem onShards_cases {call : EStateM Fault σ DbError} (h : (onShards call).run s = .ok r s') :
    ∃ shards, eachShard call s.shards = .ok r shards ∧ s' = { s with shards := shards } := by
  change onShards call s = _ at h
  rw [onShards] at h
  cases hrun : eachShard call s.shards with
  | error e shards =>
    rw [hrun] at h
    cases h
  | ok e shards =>
    rw [hrun] at h
    cases h
    exact ⟨shards, rfl, rfl⟩

/-- What is left of a call that has failed: what it did to the shards. -/
theorem createTable_failed {schema : Schema} (hr : r.isSentinel = false)
    (h : (createTable P vocabulary schema).run s = .ok r s') :
    (¬ Reaches vocabulary s (.createTable schema) ∧ s' = s) ∨
      Reaches vocabulary s (.createTable schema) ∧
        (onShards (P.createTable schema)).run s = .ok r s' := by
  rw [createTable] at h
  rw [EStateM.run_bind, EStateM.run_get] at h
  dsimp only at h
  split_ifs at h with hopen
  · cases h
    refine Or.inl ⟨fun hreach => ?_, rfl⟩
    rw [hreach.1] at hopen
    cases hopen
  cases hcol : schema.columns.find? fun col => !s.accepts vocabulary col.type with
  | some col =>
    rw [hcol] at h
    cases h
    refine Or.inl ⟨fun hreach => ?_, rfl⟩
    have hrefused := List.find?_some hcol
    rw [hreach.2.1 col (List.mem_of_find?_eq_some hcol)] at hrefused
    cases hrefused
  | none =>
    rw [hcol] at h
    dsimp only at h
    cases herror : s.hashPartitionError schema with
    | some e =>
      rw [herror] at h
      cases h
      refine Or.inl ⟨fun hreach => ?_, rfl⟩
      cases hreach.2.2.symm.trans herror
    | none =>
      rw [herror] at h
      obtain ⟨e, s₁, hcall, hrest⟩ := run_bind_eq_ok.1 h
      have hreach : Reaches vocabulary s (.createTable schema) := by
        refine ⟨by simpa using hopen, fun col hmem => ?_, herror⟩
        simpa using List.find?_eq_none.1 hcol col hmem
      -- the shards refuse it, or the engine records it and reports no error
      split_ifs at hrest with he
      · cases hrest
        exact Or.inr ⟨hreach, hcall⟩
      · rw [EStateM.run_bind, EStateM.run_modify] at hrest
        cases hrest
        cases hr

theorem dropTable_failed {name : Bytes} (hr : r.isSentinel = false)
    (h : (dropTable P name).run s = .ok r s') :
    (¬ Reaches vocabulary s (.dropTable name) ∧ s' = s) ∨
      Reaches vocabulary s (.dropTable name) ∧ (onShards (P.dropTable name)).run s = .ok r s' := by
  rw [dropTable] at h
  rw [EStateM.run_bind, EStateM.run_get] at h
  dsimp only at h
  split_ifs at h with hopen
  · cases h
    refine Or.inl ⟨fun hreach => ?_, rfl⟩
    rw [show s.opened = true from hreach] at hopen
    cases hopen
  · have hopened : s.opened = true := by simpa using hopen
    obtain ⟨e, s₁, hcall, hrest⟩ := run_bind_eq_ok.1 h
    split_ifs at hrest with he
    · cases hrest
      exact Or.inr ⟨hopened, hcall⟩
    · rw [EStateM.run_bind, EStateM.run_modify] at hrest
      cases hrest
      cases hr

/-- A change of the registry that is refused changes nothing. -/
theorem alterSchema_failed {name : Bytes} {alter : Schema → Except DbError Schema}
    (hr : r.isSentinel = false) (h : (alterSchema name alter).run s = .ok r s') : s' = s := by
  rw [alterSchema] at h
  rw [EStateM.run_bind, EStateM.run_get] at h
  dsimp only at h
  split at h
  · cases h
    rfl
  · split at h
    · cases h
      rfl
    · rw [EStateM.run_bind, EStateM.run_set] at h
      cases h
      cases hr

theorem renameTable_failed {name newName : Bytes} (hr : r.isSentinel = false)
    (h : (renameTable name newName).run s = .ok r s') : s' = s := by
  rw [renameTable] at h
  rw [EStateM.run_bind, EStateM.run_get] at h
  dsimp only at h
  split at h
  · cases h
    rfl
  · split_ifs at h
    · cases h
      rfl
    · cases h
      rfl
    · rw [EStateM.run_bind, EStateM.run_set] at h
      cases h
      cases hr

/-- The shards of a change of columns may all have accepted, and the registry may have refused. -/
theorem alterTable_failed {name : Bytes} {spec : AlterSpec} (hr : r.isSentinel = false)
    (h : (alterTable P name spec).run s = .ok r s') :
    (¬ Reaches vocabulary s (.alterTable name spec) ∧ s' = s) ∨
      Reaches vocabulary s (.alterTable name spec) ∧ ∃ e,
        (onShards (P.alterTable name spec)).run s = .ok e s' := by
  simp only [alterTable] at h
  rw [EStateM.run_bind, EStateM.run_get] at h
  dsimp only at h
  have hcolumns : ∀ {alter : Schema → Except DbError Schema}, ((do
      let r ← onShards (P.alterTable name spec)
      if !r.isSentinel then return r
      alterSchema name alter : EStateM Fault (ShardedStorageProvider σ) DbError).run s = .ok r s') →
        ∃ e, (onShards (P.alterTable name spec)).run s = .ok e s' := by
    intro alter hrun
    obtain ⟨e, s₁, hcall, hrest⟩ := run_bind_eq_ok.1 hrun
    split_ifs at hrest with he
    · cases hrest
      exact ⟨r, hcall⟩
    · -- the shards have accepted, and the registry is what refuses
      rw [alterSchema_failed hr hrest]
      exact ⟨e, hcall⟩
  split_ifs at h with hopen
  · cases h
    refine Or.inl ⟨fun hreach => ?_, rfl⟩
    cases spec with
    | renameTable newName => exact hreach
    | addColumn columnDef =>
      rw [show s.opened = true from hreach] at hopen
      cases hopen
    | dropColumn column =>
      rw [show s.opened = true from hreach] at hopen
      cases hopen
  · have hopened : s.opened = true := by simpa using hopen
    cases spec with
    | renameTable newName => exact Or.inl ⟨id, renameTable_failed hr h⟩
    | addColumn columnDef => exact Or.inr ⟨hopened, hcolumns h⟩
    | dropColumn column => exact Or.inr ⟨hopened, hcolumns h⟩

/-- A call that has failed: it has not reached the shards, or nothing else has changed. -/
theorem ddl_failed (hr : r.isSentinel = false) (h : (ddl P vocabulary c).run s = .ok r s') :
    (¬ Reaches vocabulary s c ∧ s' = s) ∨
      Reaches vocabulary s c ∧ ∃ e, (onShards (c.exec P)).run s = .ok e s' := by
  cases c with
  | createTable schema => exact (createTable_failed hr h).imp_right fun hfailed => ⟨hfailed.1, r, hfailed.2⟩
  | dropTable name => exact (dropTable_failed hr h).imp_right fun hfailed => ⟨hfailed.1, r, hfailed.2⟩
  | alterTable name spec => exact alterTable_failed hr h

end

/-- A call that fails leaves all tables and schemas as they were if and only if it has not reached the
shards or the first shard has refused it. -/
theorem ddl_unchanged_iff (K : SchemaKeeper) {vocabulary : ValueType → Bool} {c : DdlCall}
    {s s' : ShardedStorageProvider K.State} {r : DbError}
    (h : (ddl K.provider vocabulary c).run s = .ok r s') (hr : r.isSentinel = false) :
    Unchanged K s s' ↔ ¬ Reaches vocabulary s c ∨ FirstRefuses K.provider c s.shards := by
  -- only the state of the shards can differ, and it does from the first that has accepted
  rcases ddl_failed hr h with ⟨hreach, rfl⟩ | ⟨hreach, e, hcall⟩
  · exact iff_of_true (unchanged_self K s') (Or.inl hreach)
  rw [or_iff_right (not_not_intro hreach)]
  obtain ⟨shards', hrun, rfl⟩ := onShards_cases hcall
  cases hshards : s.shards with
  | nil =>
    rw [hshards] at hrun
    cases hrun
    refine iff_of_true ⟨?_, rfl⟩ trivial
    rw [hshards]
    exact .nil
  | cons shard shards =>
    rw [hshards] at hrun
    obtain ⟨e', shard', hfirst, hcases⟩ := eachShard_cons_cases hrun
    have hiff := K.unchanged_iff hfirst
    rcases hcases with ⟨hrefused, -, rfl⟩ | ⟨haccepted, rest, rfl⟩
    · -- the call has ended before any shard changed
      refine iff_of_true ⟨?_, rfl⟩ ⟨e', shard', hfirst, hrefused⟩
      rw [hshards]
      exact .cons (hiff.2 hrefused) (List.forall₂_same.2 fun _ _ => rfl)
    · -- the first shard has changed, and nothing takes that back
      refine iff_of_false (fun hunchanged => ?_) ?_
      · have hpairs := hunchanged.shards
        rw [hshards] at hpairs
        cases hpairs with
        | cons hsame _ =>
          rw [hiff.1 hsame] at haccepted
          cases haccepted
      · rintro ⟨e₁, shard₁, hfirst', hrefused⟩
        cases hfirst.symm.trans hfirst'
        rw [hrefused] at haccepted
        cases haccepted

/-! ### Two shards -/

/-- Shards in memory and on files, side by side. -/
def shardKeeper : SchemaKeeper := InMemory.schemaKeeper.either LocalFileStorageProvider.schemaKeeper

/-- An open provider over a shard in memory and one on a file. -/
def overMixed : ShardedStorageProvider shardKeeper.State :=
  ⟨[.inl InMemory.new, .inr (.new 16 (by decide))], .empty, .empty, true⟩

/-- Dropping a table that no shard has fails at the first. -/
theorem drop_of_missing_table :
    ∃ r s', (ddl shardKeeper.provider InMemory.accepts (.dropTable (ascii "t"))).run overMixed =
        .ok r s' ∧ r.isSentinel = false ∧ Unchanged shardKeeper overMixed s' := by
  have hrun : (ddl shardKeeper.provider InMemory.accepts (.dropTable (ascii "t"))).run overMixed =
      .ok (.tableNotFound (ascii "t")) overMixed := rfl
  have hr : (DbError.tableNotFound (ascii "t")).isSentinel = false := by decide
  refine ⟨_, _, hrun, hr, (ddl_unchanged_iff shardKeeper hrun hr).2 (Or.inr ?_)⟩
  exact ⟨.tableNotFound (ascii "t"), .inl InMemory.new, rfl, hr⟩

/-- An open provider over two shards in memory. -/
def overTwo (first second : InMemoryStore) : ShardedStorageProvider InMemoryStore :=
  ⟨[first, second], .empty, .empty, true⟩

/-- A table that only the second shard has. -/
def onlyOnSecond : ShardedStorageProvider InMemoryStore :=
  overTwo InMemory.new (InMemory.createTable (emptySchema (ascii "t")) InMemory.new).2

def ageColumn : ColumnDef := ⟨ascii "age", .int64, true, false, 0, .empty, none⟩

/-- The first shard keeps the table that the second refuses to make. And a column that the registry
refuses, because the table has another name there since it was renamed, stays on all shards. -/
theorem failed_calls_leave_changes :
    (∃ r s', (ddl InMemory.provider InMemory.accepts (.createTable (emptySchema (ascii "t")))).run
        onlyOnSecond = .ok r s' ∧ r.isSentinel = false ∧
      ¬ Unchanged InMemory.schemaKeeper onlyOnSecond s') ∧
    ∃ s₁ s₂ r s₃,
      (ddl InMemory.provider InMemory.accepts (.createTable (emptySchema (ascii "t")))).run
        (overTwo InMemory.new InMemory.new) = .ok .sentinel s₁ ∧
      (ddl InMemory.provider InMemory.accepts
        (.alterTable (ascii "t") (.renameTable (ascii "u")))).run s₁ = .ok .sentinel s₂ ∧
      (ddl InMemory.provider InMemory.accepts
        (.alterTable (ascii "t") (.addColumn ageColumn))).run s₂ = .ok r s₃ ∧
      r.isSentinel = false ∧ ¬ Unchanged InMemory.schemaKeeper s₂ s₃ := by
  constructor
  · refine ⟨_, _, rfl, by decide, fun hunchanged => ?_⟩
    cases hunchanged.shards with
    | cons hfirst _ =>
      have htable := congrFun hfirst (ascii "t")
      exact absurd htable (by decide)
  · refine ⟨_, _, _, _, rfl, rfl, rfl, by decide, fun hunchanged => ?_⟩
    cases hunchanged.shards with
    | cons hfirst _ =>
      have htable := congrFun hfirst (ascii "t")
      exact absurd htable (by decide)

end ShardedStorageProvider

end OpenDB
