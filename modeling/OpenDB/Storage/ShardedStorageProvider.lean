import OpenDB.Core.Services
import OpenDB.Storage.ShardedStorageEngine

/-!
# The sharded provider

`ShardedStorageProvider` over child providers of any kind. It keeps a registry of schemas beside
those of its shards. Creating and dropping a table and changing its columns go to every shard, one
after the other until one refuses; renaming a table only moves the entry of the registry, so that the
shards go on under the old name.

Reads fan out to the shards. What a call of the registry can do to the shards is described child by
child (`OnEach`).
-/

set_option autoImplicit false

namespace OpenDB

open OpenDB.Library

/-- The provider: its shards, the partition policies of its engine, and its own schemas. -/
structure ShardedStorageProvider (σ : Type) where
  shards : List σ
  policies : AssocMap Bytes PartitionPolicy
  schemas : AssocMap Bytes Schema
  opened : Bool

namespace ShardedStorageProvider

variable {σ : Type}

/-- A call to the shards one after the other; an error or an exception ends it. -/
def eachShard (call : EStateM Fault σ DbError) : List σ → EStateM.Result Fault (List σ) DbError
  | [] => .ok .sentinel []
  | c :: cs =>
    match call.run c with
    | .error e c' => .error e (c' :: cs)
    | .ok r c' =>
      if r.isSentinel then
        match eachShard call cs with
        | .ok r' cs' => .ok r' (c' :: cs')
        | .error e cs' => .error e (c' :: cs')
      else .ok r (c' :: cs)

/-- A call to all shards of the provider. -/
def onShards (call : EStateM Fault σ DbError) : EStateM Fault (ShardedStorageProvider σ) DbError :=
  fun s =>
    match eachShard call s.shards with
    | .ok r shards => .ok r { s with shards := shards }
    | .error e shards => .error e { s with shards := shards }

/-- The vocabulary is that of the first shard. -/
def accepts (vocabulary : ValueType → Bool) (s : ShardedStorageProvider σ) (type : ValueType) : Bool :=
  !s.shards.isEmpty && vocabulary type

/-- What `createTable` demands of a hash partition. -/
def hashPartitionError (s : ShardedStorageProvider σ) (schema : Schema) : Option DbError :=
  match schema.partition with
  | none => none
  | some policy =>
    if policy.kind = .hash then
      if policy.shardCount.toNat ≠ s.shards.length then
        some ⟨.notSupported, ascii ("partition shardCount (" ++ toString policy.shardCount.toNat ++
          ") must match provider shard count (" ++ toString s.shards.length ++ ")")⟩
      else if policy.column.isEmpty then
        some ⟨.notSupported, ascii "hash partition requires a column name"⟩
      else none
    else none

/-- `createTable`. -/
def createTable (P : StorageProvider σ) (vocabulary : ValueType → Bool) (schema : Schema) :
    EStateM Fault (ShardedStorageProvider σ) DbError := do
  let s ← get
  if !s.opened then return .notOpen
  match schema.columns.find? fun col => !s.accepts vocabulary col.type with
  | some col =>
    return ⟨.notSupported,
      ascii "column '" ++ col.name ++ ascii "' type not accepted by sharded provider"⟩
  | none =>
    match s.hashPartitionError schema with
    | some e => return e
    | none =>
      let r ← onShards (P.createTable schema)
      if !r.isSentinel then return r
      modify fun s => { s with
        policies := match schema.partition with
          | some policy => s.policies.assign schema.table policy
          | none => s.policies
        schemas := s.schemas.assign schema.table schema }
      return .sentinel

/-- `dropTable`. -/
def dropTable (P : StorageProvider σ) (name : Bytes) :
    EStateM Fault (ShardedStorageProvider σ) DbError := do
  let s ← get
  if !s.opened then return .notOpen
  let r ← onShards (P.dropTable name)
  if !r.isSentinel then return r
  modify fun s => { s with schemas := s.schemas.erase name, policies := s.policies.erase name }
  return .sentinel

/-- A rename moves the entry of the registry; the shards do not hear of it. -/
def renameTable (name newName : Bytes) : EStateM Fault (ShardedStorageProvider σ) DbError := do
  let s ← get
  match s.schemas.find name with
  | none => return .tableNotFound name
  | some schema =>
    if newName.isEmpty then return ⟨.internal, ascii "rename requires new name"⟩
    if (s.schemas.find newName).isSome then return .tableExists newName
    set { s with
      schemas := (s.schemas.erase name).assign newName { schema with table := newName } }
    return .sentinel

/-- The change of columns in the registry, after that of the shards. -/
def alterSchema (name : Bytes) (alter : Schema → Except DbError Schema) :
    EStateM Fault (ShardedStorageProvider σ) DbError := do
  let s ← get
  match s.schemas.find name with
  | none => return .tableNotFound name
  | some schema =>
    match alter schema with
    | .error e => return e
    | .ok altered =>
      set { s with schemas := s.schemas.assign name altered }
      return .sentinel

/-- The new columns of a schema. -/
def alteredColumns (spec : AlterSpec) (schema : Schema) : Except DbError Schema :=
  match spec with
  | .addColumn columnDef =>
    if (schema.find columnDef.name).isSome then .error ⟨.internal, ascii "column already exists"⟩
    else .ok { schema with columns := schema.columns ++ [columnDef] }
  | .dropColumn column =>
    if (schema.find column).isNone then .error ⟨.notFound, ascii "column not found"⟩
    else .ok { schema with columns := schema.columns.eraseP fun c => c.name = column }
  | .renameTable _ => .ok schema

/-- `alterTable`. -/
def alterTable (P : StorageProvider σ) (name : Bytes) (spec : AlterSpec) :
    EStateM Fault (ShardedStorageProvider σ) DbError := do
  let s ← get
  if !s.opened then return .notOpen
  match spec with
  | .renameTable newName => renameTable name newName
  | spec =>
    let r ← onShards (P.alterTable name spec)
    if !r.isSentinel then return r
    alterSchema name (alteredColumns spec)

/-- `describeTable`. -/
def describeTable (s : ShardedStorageProvider σ) (name : Bytes) : Option Schema :=
  s.schemas.find name

/-- `scan` of the engine: what the shards emit, one after the other. -/
def scanShards (scan : σ → Except Fault (List Tuple)) : List σ → Except Fault (List Tuple)
  | [] => .ok []
  | c :: cs => do
    let rows ← scan c
    return rows ++ (← scanShards scan cs)

/-! ## What a call does to the shards -/

/-- Every shard has taken the call, and none has refused it. -/
def OnEach (call : EStateM Fault σ DbError) (shards shards' : List σ) : Prop :=
  List.Forall₂ (fun c c' => ∃ r, call.run c = .ok r c' ∧ r.isSentinel = true) shards shards'

theorem eachShard_ok {call : EStateM Fault σ DbError} {shards shards' : List σ} {r : DbError}
    (h : eachShard call shards = .ok r shards') (hr : r.isSentinel = true) :
    OnEach call shards shards' := by
  induction shards generalizing shards' with
  | nil =>
    cases h
    exact .nil
  | cons c cs ih =>
    rw [eachShard] at h
    cases hc : call.run c with
    | error e c' =>
      rw [hc] at h
      cases h
    | ok r' c' =>
      rw [hc] at h
      dsimp only at h
      split_ifs at h with hr'
      · cases hcs : eachShard call cs with
        | error e cs' =>
          rw [hcs] at h
          cases h
        | ok r'' cs' =>
          rw [hcs] at h
          cases h
          exact .cons ⟨r', hc, hr'⟩ (ih hcs)
      · -- the shard has refused, and its answer is the one returned
        cases h
        exact absurd hr hr'

theorem onShards_ok {call : EStateM Fault σ DbError} {s s' : ShardedStorageProvider σ} {r : DbError}
    (h : (onShards call).run s = .ok r s') (hr : r.isSentinel = true) :
    OnEach call s.shards s'.shards := by
  change onShards call s = _ at h
  unfold onShards at h
  cases hrun : eachShard call s.shards with
  | error e shards =>
    rw [hrun] at h
    cases h
  | ok r' shards =>
    rw [hrun] at h
    cases h
    exact eachShard_ok hrun hr

section

variable {P : StorageProvider σ} {s s' : ShardedStorageProvider σ} {r : DbError}

/-- A partition that is refused is refused with a text. -/
theorem hashPartitionError_ne {schema : Schema} {e : DbError}
    (h : s.hashPartitionError schema = some e) : ¬ e.isSentinel = true := by
  unfold hashPartitionError at h
  cases hpolicy : schema.partition with
  | none =>
    rw [hpolicy] at h
    cases h
  | some policy =>
    rw [hpolicy] at h
    dsimp only at h
    split_ifs at h <;> cases h <;> simp [DbError.isSentinel, ascii]

/-- `createTable` that succeeds has made the table on every shard. -/
theorem createTable_ok {vocabulary : ValueType → Bool} {schema : Schema}
    (h : (createTable P vocabulary schema).run s = .ok r s') (hr : r.isSentinel = true) :
    OnEach (P.createTable schema) s.shards s'.shards := by
  unfold createTable at h
  rw [EStateM.run_bind, EStateM.run_get] at h
  dsimp only at h
  split_ifs at h with hopen
  · cases h
    cases hr
  cases hcol : schema.columns.find? fun col => !s.accepts vocabulary col.type with
  | some col =>
    rw [hcol] at h
    cases h
    simp [DbError.isSentinel, ascii] at hr
  | none =>
    rw [hcol] at h
    dsimp only at h
    cases herror : s.hashPartitionError schema with
    | some e =>
      rw [herror] at h
      cases h
      exact absurd hr (hashPartitionError_ne herror)
    | none =>
      rw [herror] at h
      obtain ⟨r', s₁, hcall, h⟩ := run_bind_eq_ok.1 h
      split_ifs at h with hr'
      · cases h
        simp [hr] at hr'
      · have hshards := onShards_ok hcall (by simpa using hr')
        rw [EStateM.run_bind, EStateM.run_modify] at h
        cases h
        exact hshards

/-- `dropTable` that succeeds has dropped the table on every shard. -/
theorem dropTable_ok {name : Bytes} (h : (dropTable P name).run s = .ok r s')
    (hr : r.isSentinel = true) : OnEach (P.dropTable name) s.shards s'.shards := by
  unfold dropTable at h
  rw [EStateM.run_bind, EStateM.run_get] at h
  dsimp only at h
  split_ifs at h with hopen
  · cases h
    cases hr
  · obtain ⟨r', s₁, hcall, h⟩ := run_bind_eq_ok.1 h
    split_ifs at h with hr'
    · cases h
      simp [hr] at hr'
    · have hshards := onShards_ok hcall (by simpa using hr')
      rw [EStateM.run_bind, EStateM.run_modify] at h
      cases h
      exact hshards

/-- A rename leaves the shards alone, whether it succeeds or not. -/
theorem shards_renameTable {name newName : Bytes}
    (h : (alterTable P name (.renameTable newName)).run s = .ok r s') : s'.shards = s.shards := by
  unfold alterTable at h
  rw [EStateM.run_bind, EStateM.run_get] at h
  dsimp only at h
  split_ifs at h with hopen
  · cases h
    rfl
  · unfold renameTable at h
    rw [EStateM.run_bind, EStateM.run_get] at h
    dsimp only at h
    cases hfind : s.schemas.find name with
    | none =>
      rw [hfind] at h
      cases h
      rfl
    | some schema =>
      rw [hfind] at h
      dsimp only at h
      split_ifs at h <;> cases h <;> rfl

end

end ShardedStorageProvider

end OpenDB
