import OpenDB.Library.Concatenation
import OpenDB.Storage.Promotion
import OpenDB.Storage.ShardedStorageProvider

/-!
# Names of tables and their rows

A provider keeps the names of tables apart from their rows. When a name is dropped and used again, or
given to another table, the rows have to follow: a table made anew is empty and numbers its rows from
the start, and a table that is renamed takes its rows along.

`Catalogue` is what a provider does to names and what it shows of rows. The in-memory provider and the
renaming of the sharded provider move the names only (`SameRows`), so that their tables come back with
the rows they had, and a renamed table leaves its rows behind.
-/

set_option autoImplicit false

namespace OpenDB

open OpenDB.Library

/-- The calls of a provider that change the names of tables, and what it shows of a table: the rows a
transaction reads, and the last number that each store behind it has given to a null key. A reader is
fresh when nothing is staged under its identifier. -/
structure Catalogue (σ : Type) where
  createTable : Schema → EStateM Fault σ DbError
  dropTable : Bytes → EStateM Fault σ DbError
  alterTable : Bytes → AlterSpec → EStateM Fault σ DbError
  scan : UInt64 → Bytes → σ → Except Fault (List Tuple)
  numbers : Bytes → σ → List UInt64
  Fresh : UInt64 → σ → Prop

namespace Catalogue

variable {σ : Type} (C : Catalogue σ)

/-- The table of the schema has been dropped and created again. -/
def Recreated (schema : Schema) (s s' : σ) : Prop :=
  ∃ r r' s₁, (C.dropTable schema.table).run s = .ok r s₁ ∧ r.isSentinel = true ∧
    (C.createTable schema).run s₁ = .ok r' s' ∧ r'.isSentinel = true

/-- The table has been renamed. -/
def Renamed (name newName : Bytes) (s s' : σ) : Prop :=
  ∃ r, (C.alterTable name (.renameTable newName)).run s = .ok r s' ∧ r.isSentinel = true

/-- No fresh reader sees a row of the table, and the next null key gets the first number. -/
structure LooksNew (table : Bytes) (s : σ) : Prop where
  empty : ∀ txn, C.Fresh txn s → C.scan txn table s = .ok []
  unnumbered : ∀ n ∈ C.numbers table s, n = 0

/-- No reader sees a row of the table. -/
def ShowsNothing (table : Bytes) (s : σ) : Prop := ∀ txn, C.scan txn table s = .ok []

/-- Every reader finds the rows under the new name, and none under the old one. -/
def RowsMoved (name newName : Bytes) (s s' : σ) : Prop :=
  ∀ txn, C.scan txn newName s' = C.scan txn name s ∧ C.scan txn name s' = .ok []

/-- The rows are where they were. -/
structure SameRows (s s' : σ) : Prop where
  scan : ∀ txn table, C.scan txn table s' = C.scan txn table s
  numbers : ∀ table, C.numbers table s' = C.numbers table s
  fresh : ∀ txn, C.Fresh txn s' ↔ C.Fresh txn s

variable {C}

theorem SameRows.trans {s s₁ s' : σ} (h : C.SameRows s s₁) (h' : C.SameRows s₁ s') :
    C.SameRows s s' :=
  ⟨fun txn table => (h'.scan txn table).trans (h.scan txn table),
    fun table => (h'.numbers table).trans (h.numbers table),
    fun txn => (h'.fresh txn).trans (h.fresh txn)⟩

/-- When the rows stay, a table looks new only if it looked new before. -/
theorem SameRows.looksNew_iff {s s' : σ} (h : C.SameRows s s') (table : Bytes) :
    C.LooksNew table s' ↔ C.LooksNew table s := by
  constructor
  · rintro ⟨hempty, hnumbers⟩
    refine ⟨fun txn hfresh => ?_, ?_⟩
    · rw [← h.scan]
      exact hempty txn ((h.fresh txn).2 hfresh)
    · rw [← h.numbers]
      exact hnumbers
  · rintro ⟨hempty, hnumbers⟩
    refine ⟨fun txn hfresh => ?_, ?_⟩
    · rw [h.scan]
      exact hempty txn ((h.fresh txn).1 hfresh)
    · rw [h.numbers]
      exact hnumbers

/-- When the rows stay, they have moved only if there were none under either name. -/
theorem SameRows.rowsMoved_iff {s s' : σ} (h : C.SameRows s s') (name newName : Bytes) :
    C.RowsMoved name newName s s' ↔ C.ShowsNothing name s ∧ C.ShowsNothing newName s := by
  constructor
  · intro hmoved
    have hname : C.ShowsNothing name s := fun txn => (h.scan txn name).symm.trans (hmoved txn).2
    refine ⟨hname, fun txn => ?_⟩
    rw [← h.scan, (hmoved txn).1]
    exact hname txn
  · rintro ⟨hname, hnew⟩ txn
    rw [h.scan, h.scan]
    exact ⟨(hnew txn).trans (hname txn).symm, hname txn⟩

end Catalogue

/-! ## The in-memory provider -/

namespace InMemory

/-- Nothing is staged by the transaction. -/
def Fresh (txn : UInt64) (s : InMemoryStore) : Prop :=
  ∀ table ∈ s.tables.entries, ∀ row ∈ table.2, ∀ v ∈ row.2, isStagedBy txn v = false

def catalogue : Catalogue InMemoryStore where
  createTable := provider.createTable
  dropTable := provider.dropTable
  alterTable := provider.alterTable
  scan txn table s := .ok (scan txn table s)
  numbers table s := [(s.autoId.find table).getD 0]
  Fresh := Fresh

/-- Only the schemas have changed. -/
theorem sameRows_of_schemas {s s' : InMemoryStore} (h : s' = { s with schemas := s'.schemas }) :
    catalogue.SameRows s s' := by
  rw [h]
  exact ⟨fun _ _ => rfl, fun _ => rfl, fun _ => Iff.rfl⟩

theorem sameRows_createTable {schema : Schema} {s s' : InMemoryStore} {r : DbError}
    (h : (catalogue.createTable schema).run s = .ok r s') : catalogue.SameRows s s' := by
  apply sameRows_of_schemas
  change EStateM.Result.ok (createTable schema s).1 (createTable schema s).2 = _ at h
  cases h
  unfold createTable
  split_ifs
  · rfl
  · cases schema.columns.find? fun c => !accepts c.type <;> rfl

theorem sameRows_dropTable {name : Bytes} {s s' : InMemoryStore} {r : DbError}
    (h : (catalogue.dropTable name).run s = .ok r s') : catalogue.SameRows s s' := by
  apply sameRows_of_schemas
  change EStateM.Result.ok (dropTable name s).1 (dropTable name s).2 = _ at h
  cases h
  unfold dropTable
  split_ifs <;> rfl

theorem sameRows_alterTable {name : Bytes} {spec : AlterSpec} {s s' : InMemoryStore} {r : DbError}
    (h : (catalogue.alterTable name spec).run s = .ok r s') : catalogue.SameRows s s' := by
  apply sameRows_of_schemas
  change EStateM.Result.ok (alterTable name spec s).1 (alterTable name spec s).2 = _ at h
  cases h
  unfold alterTable
  cases s.schemas.find name with
  | none => rfl
  | some schema =>
    cases spec with
    | addColumn columnDef =>
      dsimp only
      split_ifs <;> rfl
    | dropColumn column =>
      dsimp only
      split_ifs <;> rfl
    | renameTable newName =>
      dsimp only
      split_ifs <;> rfl

theorem sameRows_recreated {schema : Schema} {s s' : InMemoryStore}
    (h : catalogue.Recreated schema s s') : catalogue.SameRows s s' := by
  obtain ⟨r, r', s₁, hdrop, -, hcreate, -⟩ := h
  exact (sameRows_dropTable hdrop).trans (sameRows_createTable hcreate)

end InMemory

/-! ## The file-backed provider -/

namespace LocalFileStorageProvider

/-- The calls of the provider. -/
def provider : StorageProvider LocalFileStorageProvider where
  scan txn table := reading fun s => s.scan txn table
  put := put
  remove := remove
  prepare := prepare
  commit := commit
  abort := abort
  createTable := createTable
  dropTable := dropTable
  alterTable := alterTable
  describeTable name := reading fun s => .ok (s.describeTable name)

def catalogue : Catalogue LocalFileStorageProvider where
  createTable := provider.createTable
  dropTable := provider.dropTable
  alterTable := provider.alterTable
  scan txn table s := s.scan txn table
  numbers table s := (s.autoId table).toList
  Fresh txn s := ∀ table es, s.scanAll table = .ok es → ∀ e ∈ es, stagedBy txn e = false

end LocalFileStorageProvider

namespace Intact

variable {s s' : LocalFileStorageProvider} {F : List TableTree} {lost : List PageId}

theorem scan_of_not_mem (h : Intact s F lost) {table : Bytes} (hnot : table ∉ F.map TableTree.name)
    (txn : UInt64) : s.scan txn table = .ok [] := by
  rw [LocalFileStorageProvider.scan, LocalFileStorageProvider.scanTree,
    h.named.find_eq_none_iff.2 hnot]
  rfl

theorem scanTree_of_mem (h : Intact s F lost) {f : TableTree} (hf : f ∈ F) (txn : UInt64) :
    s.scanTree txn f.name = f.layout.scan txn s.visibleSeq := by
  obtain ⟨A, B, rfl⟩ := List.append_of_mem hf
  rw [LocalFileStorageProvider.scanTree, h.named.find_tree]
  exact (h.trees.tree onPages_linked).scan_eq txn s.visibleSeq

/-- The pages of a dropped table are never read again: the table made anew has a tree of its own. -/
theorem looksNew_recreated {schema : Schema} (h : Intact s F lost)
    (hre : LocalFileStorageProvider.catalogue.Recreated schema s s') :
    LocalFileStorageProvider.catalogue.LooksNew schema.table s' := by
  obtain ⟨r, r', s₁, hdrop, -, hcreate, hr'⟩ := hre
  obtain ⟨F₁, lost₁, h₁⟩ := (h.dropTable schema.table).of_ok hdrop
  rcases (h₁.createTable schema).of_ok hcreate with ⟨hrefused, -⟩ | ⟨root, h', hfind⟩
  · rw [hr'] at hrefused
    cases hrefused
  constructor
  · intro txn _
    have hblank : TableTree.blank schema.table root ∈ F₁ ++ [TableTree.blank schema.table root] := by
      simp
    have hscan := h'.scanTree_of_mem hblank txn
    show s'.scan txn schema.table = .ok []
    rw [LocalFileStorageProvider.scan, show s'.scanTree txn schema.table = _ from hscan]
    rfl
  · intro n hn
    have hnumber : s'.autoId schema.table = some 0 := by
      rw [LocalFileStorageProvider.autoId, hfind]
      rfl
    change n ∈ (s'.autoId schema.table).toList at hn
    rw [hnumber] at hn
    exact List.mem_singleton.1 hn

/-- The tree of a renamed table goes along. -/
theorem rowsMoved_renamed {name newName : Bytes} (h : Intact s F lost)
    (hre : LocalFileStorageProvider.catalogue.Renamed name newName s s') :
    LocalFileStorageProvider.catalogue.RowsMoved name newName s s' := by
  obtain ⟨r, hrun, hr⟩ := hre
  rcases (h.renameTable name newName).of_ok hrun with ⟨hrefused, -⟩ |
    ⟨A, f, B, rfl, rfl, hnew, h', hseq⟩
  · rw [hr] at hrefused
    cases hrefused
  intro txn
  constructor
  · have hold := h.scanTree_of_mem (show f ∈ A ++ f :: B by simp) txn
    have hmoved := h'.scanTree_of_mem
      (show { f with name := newName } ∈ A ++ B ++ [{ f with name := newName }] by simp) txn
    show s'.scan txn newName = s.scan txn f.name
    rw [LocalFileStorageProvider.scan, LocalFileStorageProvider.scan, hold,
      show s'.scanTree txn newName = _ from hmoved, hseq]
  · refine h'.scan_of_not_mem ?_ txn
    intro hmem
    rw [List.map_append, List.mem_append, List.map_append, List.mem_append] at hmem
    obtain ⟨hA, hB⟩ := h.named.not_mem_names
    rcases hmem with (hmem | hmem) | hmem
    · exact hA hmem
    · exact hB hmem
    · -- the new name was free, so it is not the old one
      have hsame : f.name = newName := List.mem_singleton.1 hmem
      exact hnew (by simp [← hsame])

end Intact

/-! ## The sharded provider -/

namespace ShardedStorageProvider

variable {σ : Type} {C : Catalogue σ} {P : StorageProvider σ} {vocabulary : ValueType → Bool}

/-- The sharded provider over children that show the same of their tables. -/
def catalogue (P : StorageProvider σ) (vocabulary : ValueType → Bool) (C : Catalogue σ) :
    Catalogue (ShardedStorageProvider σ) where
  createTable := createTable P vocabulary
  dropTable := dropTable P
  alterTable := alterTable P
  scan txn table s := scanShards (C.scan txn table) s.shards
  numbers table s := s.shards.flatMap (C.numbers table)
  Fresh txn s := ∀ c ∈ s.shards, C.Fresh txn c

/-- What holds of every shard holds of the provider. -/
theorem sameRows_of_forall₂ {s s' : ShardedStorageProvider σ}
    (h : List.Forall₂ C.SameRows s.shards s'.shards) :
    (catalogue P vocabulary C).SameRows s s' := by
  obtain ⟨shards, policies, schemas, opened⟩ := s
  obtain ⟨shards', policies', schemas', opened'⟩ := s'
  change List.Forall₂ C.SameRows shards shards' at h
  refine ⟨fun txn table => ?_, fun table => ?_, fun txn => ?_⟩
  · show scanShards (C.scan txn table) shards' = scanShards (C.scan txn table) shards
    induction h with
    | nil => rfl
    | cons hc _ ih => rw [scanShards, scanShards, hc.scan, ih]
  · show shards'.flatMap (C.numbers table) = shards.flatMap (C.numbers table)
    induction h with
    | nil => rfl
    | cons hc _ ih => rw [List.flatMap_cons, List.flatMap_cons, hc.numbers, ih]
  · show (∀ c ∈ shards', C.Fresh txn c) ↔ ∀ c ∈ shards, C.Fresh txn c
    induction h with
    | nil => exact Iff.rfl
    | cons hc _ ih => rw [List.forall_mem_cons, List.forall_mem_cons, hc.fresh, ih]

/-- A rename leaves the rows of all shards where they are. -/
theorem sameRows_renamed {name newName : Bytes} {s s' : ShardedStorageProvider σ}
    (h : (catalogue P vocabulary C).Renamed name newName s s') :
    (catalogue P vocabulary C).SameRows s s' := by
  obtain ⟨r, hrun, -⟩ := h
  apply sameRows_of_forall₂
  rw [@shards_renameTable _ P _ _ _ _ _ hrun]
  exact List.forall₂_same.2 fun c _ => ⟨fun _ _ => rfl, fun _ => rfl, fun _ => Iff.rfl⟩

theorem recreated_of_onEach {schema : Schema} {shards between shards' : List σ}
    (hdrop : OnEach (C.dropTable schema.table) shards between)
    (hcreate : OnEach (C.createTable schema) between shards') :
    List.Forall₂ (C.Recreated schema) shards shards' := by
  induction hdrop generalizing shards' with
  | nil =>
    cases hcreate
    exact .nil
  | cons hc hcs ih =>
    cases hcreate with
    | cons hc' hcs' =>
      obtain ⟨r, hdropc, hr⟩ := hc
      obtain ⟨r', hcreatec, hr'⟩ := hc'
      exact .cons ⟨r, r', _, hdropc, hr, hcreatec, hr'⟩ (ih hcs')

/-- Every shard has dropped the table and created it again. -/
theorem recreated_shards {schema : Schema} {s s' : ShardedStorageProvider σ}
    (hP : P.createTable = C.createTable ∧ P.dropTable = C.dropTable)
    (h : (catalogue P vocabulary C).Recreated schema s s') :
    List.Forall₂ (C.Recreated schema) s.shards s'.shards := by
  obtain ⟨r, r', s₁, hdrop, hr, hcreate, hr'⟩ := h
  have hdropped := dropTable_ok hdrop hr
  have hcreated := createTable_ok hcreate hr'
  rw [hP.2] at hdropped
  rw [hP.1] at hcreated
  exact recreated_of_onEach hdropped hcreated

/-- The table of the provider looks new when it does on every shard. -/
theorem looksNew_of_shards {table : Bytes} {s : ShardedStorageProvider σ}
    (h : ∀ c ∈ s.shards, C.LooksNew table c) : (catalogue P vocabulary C).LooksNew table s := by
  obtain ⟨shards, policies, schemas, opened⟩ := s
  change ∀ c ∈ shards, C.LooksNew table c at h
  constructor
  · intro txn hfresh
    change ∀ c ∈ shards, C.Fresh txn c at hfresh
    show scanShards (C.scan txn table) shards = .ok []
    induction shards with
    | nil => rfl
    | cons c cs ih =>
      rw [List.forall_mem_cons] at h hfresh
      rw [scanShards, h.1.empty txn hfresh.1, ih h.2 hfresh.2]
      rfl
  · intro n hn
    obtain ⟨c, hc, hn⟩ := List.mem_flatMap.1 hn
    exact (h c hc).unnumbered n hn

end ShardedStorageProvider

/-! ## All providers -/

/-- The providers that keep rows themselves. -/
inductive StoreKind where
  | inMemory
  | localFile
  deriving DecidableEq

namespace StoreKind

def State : StoreKind → Type
  | inMemory => InMemoryStore
  | localFile => LocalFileStorageProvider

def provider : (k : StoreKind) → StorageProvider k.State
  | inMemory => InMemory.provider
  | localFile => LocalFileStorageProvider.provider

def catalogue : (k : StoreKind) → Catalogue k.State
  | inMemory => InMemory.catalogue
  | localFile => LocalFileStorageProvider.catalogue

/-- The states in question: of the file-backed provider those that operations lead to, of the
in-memory one all. -/
def Reachable : (k : StoreKind) → k.State → Prop
  | inMemory, _ => True
  | localFile, s => ∃ capacity h, OpenDB.Reachable capacity h s

variable {k : StoreKind} {s s' : k.State}

/-- A table made anew looks new on a file, and in memory when it did before. -/
theorem looksNew_iff {schema : Schema} (hs : k.Reachable s)
    (hre : k.catalogue.Recreated schema s s') :
    k.catalogue.LooksNew schema.table s' ↔
      k = localFile ∨ k.catalogue.LooksNew schema.table s := by
  cases k with
  | inMemory =>
    rw [or_iff_right (by decide)]
    exact (InMemory.sameRows_recreated hre).looksNew_iff schema.table
  | localFile =>
    obtain ⟨capacity, hcap, hs⟩ := hs
    obtain ⟨F, lost, hintact⟩ := hs.intact
    exact iff_of_true (hintact.looksNew_recreated hre) (Or.inl rfl)

/-- A renamed table takes its rows along on a file, and in memory when there are none. -/
theorem rowsMoved_iff {name newName : Bytes} (hs : k.Reachable s)
    (hre : k.catalogue.Renamed name newName s s') :
    k.catalogue.RowsMoved name newName s s' ↔
      k = localFile ∨ k.catalogue.ShowsNothing name s ∧ k.catalogue.ShowsNothing newName s := by
  cases k with
  | inMemory =>
    rw [or_iff_right (by decide)]
    obtain ⟨r, hrun, -⟩ := hre
    exact (InMemory.sameRows_alterTable hrun).rowsMoved_iff name newName
  | localFile =>
    obtain ⟨capacity, hcap, hs⟩ := hs
    obtain ⟨F, lost, hintact⟩ := hs.intact
    exact iff_of_true (hintact.rowsMoved_renamed hre) (Or.inl rfl)

end StoreKind

/-- The providers: one that keeps rows itself, or the sharded one over such providers. -/
inductive ProviderKind where
  | plain (k : StoreKind)
  | sharded (k : StoreKind) (vocabulary : ValueType → Bool)

namespace ProviderKind

/-- Where the rows are kept. -/
def store : ProviderKind → StoreKind
  | plain k => k
  | sharded k _ => k

def State : ProviderKind → Type
  | plain k => k.State
  | sharded k _ => ShardedStorageProvider k.State

def catalogue : (k : ProviderKind) → Catalogue k.State
  | plain k => k.catalogue
  | sharded k vocabulary => ShardedStorageProvider.catalogue k.provider vocabulary k.catalogue

/-- The states in question. -/
def Reachable : (k : ProviderKind) → k.State → Prop
  | plain k, s => k.Reachable s
  | sharded k _, s => ∀ c ∈ s.shards, k.Reachable c

end ProviderKind

theorem sharded_looksNew_iff {k : StoreKind} {vocabulary : ValueType → Bool} {schema : Schema}
    {s s' : ShardedStorageProvider k.State} (hs : ∀ c ∈ s.shards, k.Reachable c)
    (hre : (ShardedStorageProvider.catalogue k.provider vocabulary k.catalogue).Recreated schema
      s s') :
    (ShardedStorageProvider.catalogue k.provider vocabulary k.catalogue).LooksNew schema.table s' ↔
      k = .localFile ∨
        (ShardedStorageProvider.catalogue k.provider vocabulary k.catalogue).LooksNew schema.table
          s := by
  have hP : k.provider.createTable = k.catalogue.createTable ∧
      k.provider.dropTable = k.catalogue.dropTable := by
    cases k <;> exact ⟨rfl, rfl⟩
  have hshards := ShardedStorageProvider.recreated_shards hP hre
  cases k with
  | inMemory =>
    rw [or_iff_right (by decide)]
    have hsame := hshards.imp fun _ _ hc => InMemory.sameRows_recreated hc
    exact (ShardedStorageProvider.sameRows_of_forall₂ hsame).looksNew_iff schema.table
  | localFile =>
    refine iff_of_true (ShardedStorageProvider.looksNew_of_shards fun c' hc' => ?_) (Or.inl rfl)
    obtain ⟨c, hc, hrec⟩ := exists_left_of_forall₂ hshards hc'
    exact (StoreKind.looksNew_iff (hs c hc) hrec).2 (Or.inl rfl)

/-- The names and the rows of tables agree on a file; in memory, and on a sharded provider when it
renames, exactly when there was nothing to keep in step. -/
theorem rows_follow_names_iff (k : ProviderKind) {s s' : k.State} (hs : k.Reachable s) :
    (∀ schema, k.catalogue.Recreated schema s s' →
      (k.catalogue.LooksNew schema.table s' ↔
        k.store = .localFile ∨ k.catalogue.LooksNew schema.table s)) ∧
    ∀ name newName, k.catalogue.Renamed name newName s s' →
      (k.catalogue.RowsMoved name newName s s' ↔
        k = .plain .localFile ∨
          k.catalogue.ShowsNothing name s ∧ k.catalogue.ShowsNothing newName s) := by
  cases k with
  | plain k =>
    refine ⟨fun schema hre => StoreKind.looksNew_iff hs hre, fun name newName hre => ?_⟩
    rw [ProviderKind.plain.injEq]
    exact StoreKind.rowsMoved_iff hs hre
  | sharded k vocabulary =>
    refine ⟨fun schema hre => sharded_looksNew_iff hs hre, fun name newName hre => ?_⟩
    rw [or_iff_right (by rintro ⟨⟩)]
    exact (ShardedStorageProvider.sameRows_renamed hre).rowsMoved_iff name newName

/-! ## A table with one row -/

namespace InMemory

/-- A table with one committed row. -/
def oneRow : InMemoryStore :=
  commit 1 1 (put 1 (ascii "t") (.int64 7) .empty (createTable (emptySchema (ascii "t")) new).2)

/-- The table after it has been dropped and created again. -/
def oneRowRecreated : InMemoryStore :=
  (createTable (emptySchema (ascii "t")) (dropTable (ascii "t") oneRow).2).2

/-- The table under a new name. -/
def oneRowRenamed : InMemoryStore := (alterTable (ascii "t") (.renameTable (ascii "u")) oneRow).2

theorem recreated_oneRow :
    catalogue.Recreated (emptySchema (ascii "t")) oneRow oneRowRecreated :=
  ⟨.sentinel, .sentinel, (dropTable (ascii "t") oneRow).2, rfl, rfl, rfl, rfl⟩

theorem renamed_oneRow : catalogue.Renamed (ascii "t") (ascii "u") oneRow oneRowRenamed :=
  ⟨.sentinel, rfl, rfl⟩

end InMemory

/-- In memory the row is back in the table made anew, and a renamed table has lost it to its old
name. -/
theorem dropped_row_comes_back :
    (∃ s', InMemory.catalogue.Recreated (emptySchema (ascii "t")) InMemory.oneRow s' ∧
      ¬ InMemory.catalogue.LooksNew (ascii "t") s') ∧
    ∃ s', InMemory.catalogue.Renamed (ascii "t") (ascii "u") InMemory.oneRow s' ∧
      ¬ InMemory.catalogue.RowsMoved (ascii "t") (ascii "u") InMemory.oneRow s' := by
  refine ⟨⟨_, InMemory.recreated_oneRow, fun hnew => ?_⟩,
    _, InMemory.renamed_oneRow, fun hmoved => ?_⟩
  · have hfresh : InMemory.Fresh 2 InMemory.oneRowRecreated := by
      unfold InMemory.Fresh
      decide
    have hscan : Except.ok (InMemory.scan 2 (ascii "t") InMemory.oneRowRecreated) =
        (.ok [] : Except Fault (List Tuple)) := hnew.empty 2 hfresh
    exact absurd (Except.ok.inj hscan) (by decide)
  · have hscan : Except.ok (InMemory.scan 2 (ascii "t") InMemory.oneRowRenamed) =
        (.ok [] : Except Fault (List Tuple)) := (hmoved 2).2
    exact absurd (Except.ok.inj hscan) (by decide)

open LocalFileStorageProvider in
/-- A table of a file that can be renamed. -/
theorem exists_renamed_first_table : ∃ s s', Reachable 16 (by decide) s ∧
    LocalFileStorageProvider.catalogue.Renamed (ascii "t") (ascii "u") s s' := by
  obtain ⟨s₀, s, root, hopen, hcreate, ⟨hsound, htables, -, -⟩, -⟩ := exists_leafTable
  have hs : Reachable 16 (by decide) s := (Reachable.opened hopen).returned
    (show (Op.createTable (emptySchema (ascii "t"))).exec.run s₀ = .ok .sentinel s from hcreate)
  have hbtrees : s.btrees.entries = [(ascii "t", some root)] := hsound.btrees
  have hregistry : s.tables.entries = [(ascii "t", ⟨emptySchema (ascii "t"), root, 0⟩)] := htables
  have hnone : s.tables.find (ascii "u") = none := by
    rw [hsound.find_table_eq_none_iff]
    show ascii "u" ∉ [ascii "t"]
    decide
  set moved : TableInfo := ⟨emptySchema (ascii "u"), root, 0⟩
  set s₁ : LocalFileStorageProvider := { s with
    tables := (s.tables.erase (ascii "t")).assign (ascii "u") moved
    btrees := (s.btrees.erase (ascii "t")).assign (ascii "u") (some root) }
  have hrun : (alterTable (ascii "t") (.renameTable (ascii "u"))).run s = (do
      saveMetadata
      return DbError.sentinel : EStateM Fault LocalFileStorageProvider DbError).run s₁ := by
    unfold alterTable
    rw [EStateM.run_bind, EStateM.run_get]
    dsimp only
    rw [if_neg (by simp [hsound.opened]), find_of_entries hregistry]
    dsimp only
    rw [if_neg (by decide), hnone, if_neg (by simp), find_of_entries hbtrees]
    rfl
  have hentries : s₁.tables.entries = [(ascii "u", moved)] := by
    show assign (ascii "u") moved (eraseKey (ascii "t") s.tables.entries) = _
    rw [htables]
    rfl
  have hone : s₁.metaPageId ≠ 0 ∧ s₁.metaPageId.toNat < s₁.pager.header.pageCount.toNat := by
    have hmeta : s₁.metaPageId = 1 := hsound.metaPage
    rw [hmeta]
    exact hsound.page_one
  rcases saveMetadata_cases hone.1 hone.2 with ⟨-, hsave⟩ | ⟨hbig, -⟩
  · refine ⟨s, s₁.saved, hs, .sentinel, ?_, rfl⟩
    show (alterTable (ascii "t") (.renameTable (ascii "u"))).run s = _
    rw [hrun, EStateM.run_bind, hsave]
    rfl
  · exact absurd (fits_one_table (by decide) hentries).1 hbig

/-- The row in memory, and a table of a file that is renamed. -/
theorem rows_follow_names_examples :
    (∃ s', InMemory.catalogue.Recreated (emptySchema (ascii "t")) InMemory.oneRow s' ∧
      (InMemory.catalogue.LooksNew (ascii "t") s' ↔
        StoreKind.inMemory = .localFile ∨
          InMemory.catalogue.LooksNew (ascii "t") InMemory.oneRow)) ∧
    ∃ s s', Reachable 16 (by decide) s ∧
      LocalFileStorageProvider.catalogue.Renamed (ascii "t") (ascii "u") s s' ∧
      LocalFileStorageProvider.catalogue.RowsMoved (ascii "t") (ascii "u") s s' := by
  constructor
  · have hiff := (rows_follow_names_iff (.plain .inMemory) trivial).1 _ InMemory.recreated_oneRow
    exact ⟨_, InMemory.recreated_oneRow, hiff⟩
  · obtain ⟨s, s', hs, hre⟩ := exists_renamed_first_table
    have hiff := (rows_follow_names_iff (.plain .localFile) ⟨16, by decide, hs⟩).2 _ _ hre
    exact ⟨s, s', hs, hre, hiff.2 (Or.inl rfl)⟩

end OpenDB
