import OpenDB.Storage.Node
import OpenDB.Types.Schema

/-!
# The metadata page

Page 1 of a database file: the two sequence counters and, for every table, its name, root page,
counter for assigned keys and schema. `saveMetadata` writes it into a page-sized buffer without a
bounds check, so metadata that does not fit is undefined behaviour; `loadMetadata` checks every
length and reports failure.

What is written is read back (`loadMetadata_metadataPage`), up to the parts of a schema that are not
written: the default values of columns, and the boundaries and lists of a partition policy.
-/

set_option autoImplicit false

namespace OpenDB

open OpenDB.Library

/-- `TableInfo`. -/
structure TableInfo where
  schema : Schema
  rootPageId : PageId
  autoId : UInt64
  deriving DecidableEq

/-- What the metadata page holds. -/
structure Metadata where
  visibleSeq : UInt64
  internalSeq : UInt64
  tables : AssocMap Bytes TableInfo
  deriving DecidableEq

/-! ## Writing -/

/-- A string behind its 32-bit length. -/
def emitString (s : Bytes) : EStateM Fault Bytes Unit := do
  let len := s.length % 2 ^ 32
  emit (leBytes 4 len)
  emit (s.take len)

def flagByte (b : Bool) : UInt8 := if b then 1 else 0

def emitExtension (e : Bytes × Bytes) : EStateM Fault Bytes Unit := do
  emitString e.1
  emitString e.2

def emitColumn (col : ColumnDef) : EStateM Fault Bytes Unit := do
  emitString col.name
  emit [col.type.toByte]
  emit [flagByte col.nullable]
  emit [flagByte col.primaryKey]
  emit (leBytes 8 col.maxByteLength.toNat)
  emit (leBytes 4 col.extensions.entries.length)
  emitAll emitExtension col.extensions.entries

/-- Boundaries and lists are left out. -/
def emitPartition : Option PartitionPolicy → EStateM Fault Bytes Unit
  | none => emit [0]
  | some pp => do
    emit [1]
    emit [pp.kind.toByte]
    emitString pp.column
    emit (leBytes 4 pp.shardCount.toNat)

def emitTable (t : Bytes × TableInfo) : EStateM Fault Bytes Unit := do
  emitString t.1
  emit (leBytes 4 t.2.rootPageId.toNat)
  emit (leBytes 8 t.2.autoId.toNat)
  emit (leBytes 4 t.2.schema.columns.length)
  emitAll emitColumn t.2.schema.columns
  emitPartition t.2.schema.partition

def emitMetadata (m : Metadata) : EStateM Fault Bytes Unit := do
  emit (leBytes 8 m.visibleSeq.toNat)
  emit (leBytes 8 m.internalSeq.toNat)
  emit (leBytes 4 m.tables.entries.length)
  emitAll emitTable m.tables.entries

/-- The page that `saveMetadata` hands to the pager. -/
def encodeMetadata (m : Metadata) : Except Fault Bytes :=
  match (emitMetadata m).run [] with
  | .ok _ out => .ok (out ++ List.replicate (Pager.dataPagePayloadSize - out.length) 0)
  | .error e _ => .error e

/-! ## Reading -/

/-- A reader that gives up when the buffer is too short. -/
abbrev Loader := StateT Bytes Option

/-- The next `n` bytes. -/
def loadBytes (n : Nat) : Loader Bytes := fun bs =>
  if bs.length < n then none else some (bs.take n, bs.drop n)

def loadLE (w : Nat) : Loader Nat := do
  return leValue (← loadBytes w)

def loadByte : Loader UInt8 := do
  return (← loadBytes 1).headD 0

def loadString : Loader Bytes := do
  loadBytes (← loadLE 4)

/-- The entries of a map, assigned one after the other. -/
def loadExtensions : Nat → AssocMap Bytes Bytes → Loader (AssocMap Bytes Bytes)
  | 0, exts => return exts
  | n + 1, exts => do
    let key ← loadString
    let value ← loadString
    loadExtensions n (exts.assign key value)

/-- `col.type` and the two flags are read after one check for them and the length bound. -/
def loadColumn : Loader ColumnDef := do
  let name ← loadString
  let type ← loadByte
  let nullable ← loadByte
  let primaryKey ← loadByte
  let maxByteLength ← loadLE 8
  let extensions ← loadExtensions (← loadLE 4) .empty
  return ⟨name, .ofByte type, nullable != 0, primaryKey != 0, UInt64.ofNat maxByteLength, extensions,
    none⟩

def loadColumns : Nat → Loader (List ColumnDef)
  | 0 => return []
  | n + 1 => do
    let col ← loadColumn
    return col :: (← loadColumns n)

def loadPartition : Loader (Option PartitionPolicy) := do
  if (← loadByte) != 0 then
    let kind ← loadByte
    let column ← loadString
    let shardCount ← loadLE 4
    return some ⟨.ofByte kind, column, UInt32.ofNat shardCount, [], []⟩
  else
    return none

def loadTable : Loader (Bytes × TableInfo) := do
  let name ← loadString
  let rootPageId ← loadLE 4
  let autoId ← loadLE 8
  let columns ← loadColumns (← loadLE 4)
  let partition ← loadPartition
  return (name, ⟨⟨name, columns, partition⟩, UInt32.ofNat rootPageId, UInt64.ofNat autoId⟩)

/-- The loop over the tables; those before a failure stay registered. -/
def loadTables : Nat → AssocMap Bytes TableInfo → Bytes → Bool × AssocMap Bytes TableInfo
  | 0, tables, _ => (true, tables)
  | n + 1, tables, bs =>
    match loadTable.run bs with
    | none => (false, tables)
    | some (t, rest) => loadTables n (tables.assign t.1 t.2) rest

/-- `loadMetadata` of a page, over what is registered already. -/
def loadMetadata (m : Metadata) (page : Bytes) : Bool × Metadata :=
  match ((do return (← loadLE 8, ← loadLE 8)) : Loader (Nat × Nat)).run page with
  | none => (false, m)
  | some ((visibleSeq, internalSeq), rest) =>
    let m := { m with
      visibleSeq := UInt64.ofNat visibleSeq
      internalSeq := UInt64.ofNat internalSeq }
    match (loadLE 4).run rest with
    | none => (false, m)
    | some (count, rest) =>
      let (ok, tables) := loadTables count m.tables rest
      (ok, { m with tables := tables })

/-! ## What is written -/

def stringBytes (s : Bytes) : Bytes :=
  leBytes 4 (s.length % 2 ^ 32) ++ s.take (s.length % 2 ^ 32)

def extensionBytes (e : Bytes × Bytes) : Bytes := stringBytes e.1 ++ stringBytes e.2

def columnBytes (col : ColumnDef) : Bytes :=
  stringBytes col.name ++ ([col.type.toByte] ++ ([flagByte col.nullable] ++
    ([flagByte col.primaryKey] ++ (leBytes 8 col.maxByteLength.toNat ++
      (leBytes 4 col.extensions.entries.length ++
        (col.extensions.entries.map extensionBytes).flatten)))))

def partitionBytes : Option PartitionPolicy → Bytes
  | none => [0]
  | some pp =>
    [1] ++ ([pp.kind.toByte] ++ (stringBytes pp.column ++ leBytes 4 pp.shardCount.toNat))

def tableBytes (t : Bytes × TableInfo) : Bytes :=
  stringBytes t.1 ++ (leBytes 4 t.2.rootPageId.toNat ++ (leBytes 8 t.2.autoId.toNat ++
    (leBytes 4 t.2.schema.columns.length ++ ((t.2.schema.columns.map columnBytes).flatten ++
      partitionBytes t.2.schema.partition))))

def metadataBytes (m : Metadata) : Bytes :=
  leBytes 8 m.visibleSeq.toNat ++ (leBytes 8 m.internalSeq.toNat ++
    (leBytes 4 m.tables.entries.length ++ (m.tables.entries.map tableBytes).flatten))

theorem appends_emitString (s : Bytes) : Appends (emitString s) (stringBytes s) :=
  (appends_emit _).bind (appends_emit _)

theorem appends_emitExtension (e : Bytes × Bytes) : Appends (emitExtension e) (extensionBytes e) :=
  (appends_emitString e.1).bind (appends_emitString e.2)

theorem appends_emitColumn (col : ColumnDef) : Appends (emitColumn col) (columnBytes col) :=
  (appends_emitString _).bind ((appends_emit _).bind ((appends_emit _).bind ((appends_emit _).bind
    ((appends_emit _).bind ((appends_emit _).bind (appends_emitAll appends_emitExtension _))))))

theorem appends_emitPartition (pp : Option PartitionPolicy) :
    Appends (emitPartition pp) (partitionBytes pp) := by
  cases pp with
  | none => exact appends_emit _
  | some pp =>
    exact (appends_emit _).bind ((appends_emit _).bind ((appends_emitString _).bind (appends_emit _)))

theorem appends_emitTable (t : Bytes × TableInfo) : Appends (emitTable t) (tableBytes t) :=
  (appends_emitString _).bind ((appends_emit _).bind ((appends_emit _).bind ((appends_emit _).bind
    ((appends_emitAll appends_emitColumn _).bind (appends_emitPartition _)))))

theorem appends_emitMetadata (m : Metadata) : Appends (emitMetadata m) (metadataBytes m) :=
  (appends_emit _).bind ((appends_emit _).bind ((appends_emit _).bind
    (appends_emitAll appends_emitTable _)))

/-- The metadata fits its page. -/
def Metadata.Fits (m : Metadata) : Prop := (metadataBytes m).length ≤ Pager.dataPagePayloadSize

/-- The page of metadata that fits. -/
def metadataPage (m : Metadata) : Bytes :=
  metadataBytes m ++ List.replicate (Pager.dataPagePayloadSize - (metadataBytes m).length) 0

theorem length_metadataPage {m : Metadata} (h : m.Fits) :
    (metadataPage m).length = Pager.dataPagePayloadSize := by
  unfold Metadata.Fits at h
  rw [metadataPage, List.length_append, List.length_replicate]
  omega

theorem encodeMetadata_cases (m : Metadata) :
    (m.Fits ∧ encodeMetadata m = .ok (metadataPage m)) ∨
      (¬ m.Fits ∧ ∃ e, encodeMetadata m = .error e) := by
  have happ := appends_emitMetadata m [] (Nat.zero_le _)
  rw [List.length_nil, Nat.zero_add] at happ
  by_cases h : m.Fits
  · refine Or.inl ⟨h, ?_⟩
    rw [encodeMetadata, happ.1 h]
    rfl
  · obtain ⟨e, t, he⟩ := happ.2 (not_le.1 h)
    exact Or.inr ⟨h, e, by rw [encodeMetadata, he]⟩

/-! ## What is read back -/

/-- A column without the parts that are not written. -/
def ColumnDef.persisted (col : ColumnDef) : ColumnDef :=
  { col with type := .ofByte col.type.toByte, defaultValue := none }

def PartitionPolicy.persisted (pp : PartitionPolicy) : PartitionPolicy :=
  ⟨.ofByte pp.kind.toByte, pp.column, pp.shardCount, [], []⟩

/-- A table as it comes back from disk. -/
def TableInfo.persisted (name : Bytes) (info : TableInfo) : TableInfo :=
  { info with schema := ⟨name, info.schema.columns.map ColumnDef.persisted,
      info.schema.partition.map PartitionPolicy.persisted⟩ }

/-- Strings whose length fits the 32 bits it is written in. -/
def ColumnDef.Short (col : ColumnDef) : Prop :=
  col.name.length < 2 ^ 32 ∧
    ∀ e ∈ col.extensions.entries, e.1.length < 2 ^ 32 ∧ e.2.length < 2 ^ 32

def Schema.Short (s : Schema) : Prop :=
  (∀ col ∈ s.columns, col.Short) ∧ ∀ pp ∈ s.partition, pp.column.length < 2 ^ 32

/-- The names and schemas of all tables are short. -/
def Metadata.Short (m : Metadata) : Prop :=
  ∀ t ∈ m.tables.entries, t.1.length < 2 ^ 32 ∧ t.2.schema.Short

/-- The metadata as it comes back from disk. -/
def Metadata.persisted (m : Metadata) : Metadata :=
  { m with tables := ⟨m.tables.entries.map fun t => (t.1, t.2.persisted t.1), by
      rw [List.map_map]
      exact m.tables.distinct⟩ }

theorem Metadata.find_persisted (m : Metadata) (name : Bytes) :
    m.persisted.tables.find name = (m.tables.find name).map (TableInfo.persisted name) :=
  AssocMap.lookup_map TableInfo.persisted name m.tables.entries

/-- A loader that reads `bs` as `a`. -/
def Reads {α : Type} (l : Loader α) (bs : Bytes) (a : α) : Prop :=
  ∀ rest, l.run (bs ++ rest) = some (a, rest)

theorem Reads.bind {α β : Type} {l : Loader α} {f : α → Loader β} {bs cs : Bytes} {a : α} {b : β}
    (h : Reads l bs a) (h' : Reads (f a) cs b) : Reads (l >>= f) (bs ++ cs) b := by
  intro rest
  rw [List.append_assoc, StateT.run_bind, h (cs ++ rest)]
  exact h' rest

theorem reads_pure {α : Type} (a : α) : Reads (pure a : Loader α) [] a := fun _ => rfl

/-- A last step that only computes. -/
theorem Reads.map {α β : Type} {l : Loader α} {bs : Bytes} {a : α} (f : α → β) (h : Reads l bs a) :
    Reads (do return f (← l)) bs (f a) := by
  have := Reads.bind (f := fun x => (pure (f x) : Loader β)) h (reads_pure (f a))
  rwa [List.append_nil] at this

theorem reads_loadBytes {n : Nat} {bs : Bytes} (h : bs.length = n) : Reads (loadBytes n) bs bs := by
  intro rest
  show loadBytes n (bs ++ rest) = _
  rw [loadBytes, if_neg (by rw [List.length_append]; omega), List.take_left' h, List.drop_left' h]

theorem reads_loadLE {w n : Nat} (h : n < 256 ^ w) : Reads (loadLE w) (leBytes w n) n := by
  have := (reads_loadBytes (length_leBytes w n)).map leValue
  rwa [leValue_leBytes_of_fits h] at this

theorem reads_loadByte (b : UInt8) : Reads loadByte [b] b :=
  (reads_loadBytes (show [b].length = 1 from rfl)).map fun bs : Bytes => bs.headD 0

theorem reads_loadString {s : Bytes} (h : s.length < 2 ^ 32) :
    Reads loadString (stringBytes s) s := by
  unfold stringBytes
  rw [Nat.mod_eq_of_lt h, List.take_length]
  exact (reads_loadLE h).bind (reads_loadBytes rfl)

theorem reads_loadExtensions {es : List (Bytes × Bytes)} {m : AssocMap Bytes Bytes}
    (hshort : ∀ e ∈ es, e.1.length < 2 ^ 32 ∧ e.2.length < 2 ^ 32)
    (hd : ((m.entries ++ es).map Prod.fst).Nodup) :
    Reads (loadExtensions es.length m) (es.map extensionBytes).flatten ⟨m.entries ++ es, hd⟩ := by
  induction es generalizing m with
  | nil =>
    have : (⟨m.entries ++ [], hd⟩ : AssocMap Bytes Bytes) = m :=
      AssocMap.ext (List.append_nil _)
    rw [this]
    exact reads_pure m
  | cons e es ih =>
    obtain ⟨hkey, hvalue⟩ := hshort e List.mem_cons_self
    have hnew : e.1 ∉ m.entries.map Prod.fst := by
      intro hmem
      rw [List.map_append, List.nodup_append] at hd
      exact hd.2.2 e.1 hmem e.1 (by simp) rfl
    have hentries : (m.assign e.1 e.2).entries = m.entries ++ [e] := assign_of_not_mem hnew
    have hassoc : m.entries ++ e :: es = (m.assign e.1 e.2).entries ++ es := by
      rw [hentries, List.append_assoc]
      rfl
    have hrest := ih (m := m.assign e.1 e.2) (fun x hx => hshort x (List.mem_cons_of_mem _ hx))
      (by rw [← hassoc]; exact hd)
    have hsame : (⟨m.entries ++ e :: es, hd⟩ : AssocMap Bytes Bytes) =
        ⟨(m.assign e.1 e.2).entries ++ es, by rw [← hassoc]; exact hd⟩ := AssocMap.ext hassoc
    rw [hsame, List.map_cons, List.flatten_cons, extensionBytes, List.append_assoc]
    exact (reads_loadString hkey).bind ((reads_loadString hvalue).bind hrest)

theorem flagByte_ne_zero (b : Bool) : (flagByte b != 0) = b := by
  cases b <;> rfl

theorem length_le_flatten {α : Type} {f : α → Bytes} (hf : ∀ a, 1 ≤ (f a).length) (l : List α) :
    l.length ≤ (l.map f).flatten.length := by
  induction l with
  | nil => simp
  | cons a l ih =>
    rw [List.map_cons, List.flatten_cons, List.length_append, List.length_cons]
    have := hf a
    omega

theorem one_le_stringBytes (s : Bytes) : 1 ≤ (stringBytes s).length := by
  simp [stringBytes]
  omega

theorem reads_loadColumn {col : ColumnDef} (hshort : col.Short)
    (hlen : (columnBytes col).length ≤ Pager.dataPagePayloadSize) :
    Reads loadColumn (columnBytes col) col.persisted := by
  have hcount : col.extensions.entries.length < 256 ^ 4 := by
    have hle := length_le_flatten (f := extensionBytes) (fun e => by
      rw [extensionBytes, List.length_append]
      exact le_add_right (one_le_stringBytes _)) col.extensions.entries
    simp only [columnBytes, List.length_append] at hlen
    have : Pager.dataPagePayloadSize = 4088 := rfl
    norm_num
    omega
  have hmax : col.maxByteLength.toNat < 256 ^ 8 := by
    have := col.maxByteLength.toNat_lt
    norm_num
    omega
  have hext := reads_loadExtensions (m := .empty) hshort.2 col.extensions.distinct
  have hres : Reads loadColumn (columnBytes col) ⟨col.name, .ofByte col.type.toByte,
      flagByte col.nullable != 0, flagByte col.primaryKey != 0,
      UInt64.ofNat col.maxByteLength.toNat, col.extensions, none⟩ := by
    refine (reads_loadString hshort.1).bind ((reads_loadByte _).bind ((reads_loadByte _).bind
      ((reads_loadByte _).bind ((reads_loadLE hmax).bind ((reads_loadLE hcount).bind ?_)))))
    exact hext.map fun extensions => _
  rw [flagByte_ne_zero, flagByte_ne_zero, UInt64.ofNat_toNat] at hres
  exact hres

theorem reads_loadColumns {cols : List ColumnDef} (hshort : ∀ col ∈ cols, col.Short)
    (hlen : (cols.map columnBytes).flatten.length ≤ Pager.dataPagePayloadSize) :
    Reads (loadColumns cols.length) (cols.map columnBytes).flatten
      (cols.map ColumnDef.persisted) := by
  induction cols with
  | nil => exact reads_pure _
  | cons col cols ih =>
    rw [List.map_cons, List.flatten_cons, List.length_append] at hlen
    rw [List.map_cons, List.flatten_cons, List.map_cons]
    have hcol := reads_loadColumn (hshort col List.mem_cons_self) (by omega)
    have hcols := ih (fun c hc => hshort c (List.mem_cons_of_mem _ hc)) (by omega)
    exact hcol.bind (hcols.map fun cs => col.persisted :: cs)

theorem reads_loadPartition {pp : Option PartitionPolicy}
    (hshort : ∀ p ∈ pp, p.column.length < 2 ^ 32) :
    Reads loadPartition (partitionBytes pp) (pp.map PartitionPolicy.persisted) := by
  cases pp with
  | none => exact (reads_loadByte 0).bind (reads_pure _)
  | some p =>
    have hcount : p.shardCount.toNat < 256 ^ 4 := by
      have := p.shardCount.toNat_lt
      norm_num
      omega
    have hres : Reads loadPartition (partitionBytes (some p))
        (some ⟨.ofByte p.kind.toByte, p.column, UInt32.ofNat p.shardCount.toNat, [], []⟩) := by
      refine (reads_loadByte 1).bind ((reads_loadByte _).bind
        ((reads_loadString (hshort p rfl)).bind ?_))
      exact (reads_loadLE hcount).map fun shardCount => _
    rw [UInt32.ofNat_toNat] at hres
    exact hres

theorem reads_loadTable {t : Bytes × TableInfo} (hname : t.1.length < 2 ^ 32)
    (hshort : t.2.schema.Short) (hlen : (tableBytes t).length ≤ Pager.dataPagePayloadSize) :
    Reads loadTable (tableBytes t) (t.1, t.2.persisted t.1) := by
  have hroot : t.2.rootPageId.toNat < 256 ^ 4 := by
    have := t.2.rootPageId.toNat_lt
    norm_num
    omega
  have hauto : t.2.autoId.toNat < 256 ^ 8 := by
    have := t.2.autoId.toNat_lt
    norm_num
    omega
  simp only [tableBytes, List.length_append] at hlen
  have hcount : t.2.schema.columns.length < 256 ^ 4 := by
    have hle := length_le_flatten (f := columnBytes) (fun c => by
      rw [columnBytes, List.length_append]
      exact le_add_right (one_le_stringBytes _)) t.2.schema.columns
    have : Pager.dataPagePayloadSize = 4088 := rfl
    norm_num
    omega
  have hcols := reads_loadColumns hshort.1 (by omega)
  have hres : Reads loadTable (tableBytes t) (t.1, ⟨⟨t.1, t.2.schema.columns.map ColumnDef.persisted,
      t.2.schema.partition.map PartitionPolicy.persisted⟩, UInt32.ofNat t.2.rootPageId.toNat,
      UInt64.ofNat t.2.autoId.toNat⟩) := by
    refine (reads_loadString hname).bind ((reads_loadLE hroot).bind ((reads_loadLE hauto).bind
      ((reads_loadLE hcount).bind (hcols.bind ?_))))
    exact (reads_loadPartition hshort.2).map fun partition => _
  rw [UInt32.ofNat_toNat, UInt64.ofNat_toNat] at hres
  exact hres

/-- The tables read back are assigned one after the other. -/
theorem loadTables_flatten {ts : List (Bytes × TableInfo)} (a : AssocMap Bytes TableInfo)
    (rest : Bytes) (hshort : ∀ t ∈ ts, t.1.length < 2 ^ 32 ∧ t.2.schema.Short)
    (hlen : (ts.map tableBytes).flatten.length ≤ Pager.dataPagePayloadSize) :
    loadTables ts.length a ((ts.map tableBytes).flatten ++ rest) =
      (true, ts.foldl (fun m t => m.assign t.1 (t.2.persisted t.1)) a) := by
  induction ts generalizing a with
  | nil => rfl
  | cons t ts ih =>
    rw [List.map_cons, List.flatten_cons, List.length_append] at hlen
    obtain ⟨hname, hschema⟩ := hshort t List.mem_cons_self
    have hread := reads_loadTable hname hschema (by omega)
    rw [List.map_cons, List.flatten_cons, List.append_assoc, List.length_cons, loadTables, hread]
    exact ih _ (fun x hx => hshort x (List.mem_cons_of_mem _ hx)) (by omega)

/-- Metadata that fits its page is read back, over whatever is registered already. -/
theorem loadMetadata_metadataPage_over {m : Metadata} (m₀ : Metadata) (hfits : m.Fits)
    (hshort : m.Short) : loadMetadata m₀ (metadataPage m) =
      (true, ⟨m.visibleSeq, m.internalSeq,
        m.tables.entries.foldl (fun a t => a.assign t.1 (t.2.persisted t.1)) m₀.tables⟩) := by
  have hvisible : m.visibleSeq.toNat < 256 ^ 8 := by
    have := m.visibleSeq.toNat_lt
    norm_num
    omega
  have hinternal : m.internalSeq.toNat < 256 ^ 8 := by
    have := m.internalSeq.toNat_lt
    norm_num
    omega
  unfold Metadata.Fits at hfits
  simp only [metadataBytes, List.length_append] at hfits
  have hcount : m.tables.entries.length < 256 ^ 4 := by
    have hle := length_le_flatten (f := tableBytes) (fun t => by
      rw [tableBytes, List.length_append]
      exact le_add_right (one_le_stringBytes _)) m.tables.entries
    have : Pager.dataPagePayloadSize = 4088 := rfl
    norm_num
    omega
  obtain ⟨zeros, hpage⟩ : ∃ zeros, metadataPage m = leBytes 8 m.visibleSeq.toNat ++
      leBytes 8 m.internalSeq.toNat ++ (leBytes 4 m.tables.entries.length ++
        ((m.tables.entries.map tableBytes).flatten ++ zeros)) :=
    ⟨List.replicate (Pager.dataPagePayloadSize - (metadataBytes m).length) 0,
      by simp only [metadataPage, metadataBytes, List.append_assoc]⟩
  have hseqs : Reads (do return (← loadLE 8, ← loadLE 8) : Loader (Nat × Nat))
      (leBytes 8 m.visibleSeq.toNat ++ leBytes 8 m.internalSeq.toNat)
      (m.visibleSeq.toNat, m.internalSeq.toNat) :=
    (reads_loadLE hvisible).bind ((reads_loadLE hinternal).map fun internalSeq => _)
  have hload := loadTables_flatten m₀.tables zeros hshort (by omega)
  rw [hpage, loadMetadata, hseqs]
  dsimp only
  rw [reads_loadLE hcount]
  dsimp only
  rw [hload, UInt64.ofNat_toNat, UInt64.ofNat_toNat]

/-- Metadata that fits its page is read back, over whatever the counters were. -/
theorem loadMetadata_metadataPage {m m₀ : Metadata} (hfits : m.Fits) (hshort : m.Short)
    (hempty : m₀.tables = .empty) : loadMetadata m₀ (metadataPage m) = (true, m.persisted) := by
  have htables : m.tables.entries.foldl (fun a t => a.assign t.1 (t.2.persisted t.1)) m₀.tables =
      m.persisted.tables := by
    rw [hempty]
    exact AssocMap.ext (AssocMap.entries_foldl_assign m.tables.distinct)
  rw [loadMetadata_metadataPage_over m₀ hfits hshort, htables]
  rfl

end OpenDB
