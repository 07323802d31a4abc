import OpenDB.Storage.Session

/-!
# The metadata reader and its buffer

`loadMetadata` as the source writes it: an offset into a page-sized buffer, a length check that
returns false, and behind it copies out of the buffer that check nothing themselves. One check can
cover several copies, as for the two sequence numbers and for the fixed part of a column.

The reader does exactly what the checked reader of the metadata page does, whatever the buffer holds,
and so never copies from outside it (`readMetadata_eq`).
-/

set_option autoImplicit false

namespace OpenDB

open OpenDB.Library

namespace MetadataReader

/-- The two ways out of the middle of `loadMetadata`. -/
inductive Stop where
  | returnFalse
  | fault (f : Fault)
  deriving DecidableEq, Repr

/-- The offset, and the members of the provider that are assigned on the way. -/
structure State where
  offset : Nat
  metadata : Metadata

abbrev Reader := EStateM Stop State

/-! ## Checks and copies -/

/-- `if (offset + n > buf.size()) return false`. -/
def require (buf : Bytes) (n : Nat) : Reader Unit := do
  if (← get).offset + n > buf.length then
    throw .returnFalse

/-- A copy of the next `n` bytes, unchecked: past the end of the buffer it is undefined behaviour. -/
def copy (buf : Bytes) (n : Nat) : Reader Bytes := do
  let s ← get
  if s.offset + n ≤ buf.length then
    set { s with offset := s.offset + n }
    return (buf.drop s.offset).take n
  else
    throw (.fault .outOfBounds)

/-- A little-endian number. -/
def copyLE (buf : Bytes) (w : Nat) : Reader Nat := do
  return leValue (← copy buf w)

/-- `buf[offset++]`. -/
def copyByte (buf : Bytes) : Reader UInt8 := do
  return (← copy buf 1).headD 0

/-! ## The loops of `loadMetadata` -/

/-- A string behind its 32-bit length. -/
def readString (buf : Bytes) : Reader Bytes := do
  require buf 4
  let len ← copyLE buf 4
  require buf len
  copy buf len

def readExtensions (buf : Bytes) : Nat → AssocMap Bytes Bytes → Reader (AssocMap Bytes Bytes)
  | 0, extensions => return extensions
  | n + 1, extensions => do
    let ek ← readString buf
    let ev ← readString buf
    readExtensions buf n (extensions.assign ek ev)

def readColumn (buf : Bytes) : Reader ColumnDef := do
  let name ← readString buf
  require buf (3 + 8)
  let type ← copyByte buf
  let nullable ← copyByte buf
  let primaryKey ← copyByte buf
  let maxByteLength ← copyLE buf 8
  require buf 4
  let ecount ← copyLE buf 4
  let extensions ← readExtensions buf ecount .empty
  return ⟨name, .ofByte type, nullable != 0, primaryKey != 0, UInt64.ofNat maxByteLength, extensions,
    none⟩

def readColumns (buf : Bytes) : Nat → Reader (List ColumnDef)
  | 0 => return []
  | n + 1 => do
    let col ← readColumn buf
    return col :: (← readColumns buf n)

def readPartition (buf : Bytes) : Reader (Option PartitionPolicy) := do
  require buf 1
  if (← copyByte buf) != 0 then
    require buf 1
    let kind ← copyByte buf
    let column ← readString buf
    require buf 4
    let shardCount ← copyLE buf 4
    return some ⟨.ofByte kind, column, UInt32.ofNat shardCount, [], []⟩
  else
    return none

def readTable (buf : Bytes) : Reader (Bytes × TableInfo) := do
  let name ← readString buf
  require buf 4
  let rootId ← copyLE buf 4
  require buf 8
  let autoId ← copyLE buf 8
  require buf 4
  let ccount ← copyLE buf 4
  let columns ← readColumns buf ccount
  let partition ← readPartition buf
  return (name, ⟨⟨name, columns, partition⟩, UInt32.ofNat rootId, UInt64.ofNat autoId⟩)

/-- `tables_[name] = std::move(info)` at the end of each round. -/
def readTables (buf : Bytes) : Nat → Reader Unit
  | 0 => return
  | n + 1 => do
    let t ← readTable buf
    modify fun s => { s with metadata := { s.metadata with
      tables := s.metadata.tables.assign t.1 t.2 } }
    readTables buf n

/-- The body of `loadMetadata` behind `readPage`. -/
def readBody (buf : Bytes) : Reader Unit := do
  require buf 16
  let visibleSeq ← copyLE buf 8
  modify fun s => { s with metadata := { s.metadata with visibleSeq := UInt64.ofNat visibleSeq } }
  let internalSeq ← copyLE buf 8
  modify fun s => { s with metadata := { s.metadata with internalSeq := UInt64.ofNat internalSeq } }
  require buf 4
  let tcount ← copyLE buf 4
  readTables buf tcount

/-- What a run of the body comes to for the caller of `loadMetadata`. -/
def returned : EStateM.Result Stop State Unit → Except Fault (Bool × Metadata)
  | .ok _ s => .ok (true, s.metadata)
  | .error .returnFalse s => .ok (false, s.metadata)
  | .error (.fault f) _ => .error f

/-- What `loadMetadata` returns and what it leaves in the provider, or the undefined behaviour it
runs into. -/
def readMetadata (buf : Bytes) (m : Metadata) : Except Fault (Bool × Metadata) :=
  returned ((readBody buf).run ⟨0, m⟩)

/-! ## The bounds argument -/

variable {buf : Bytes} {α β : Type}

/-- With `k` bytes left the reader does what the loader does on the rest of the buffer: both succeed
and leave the same rest, which has `k'` bytes at least, or both give up. -/
def Follows (buf : Bytes) (k : Nat) (r : Reader α) (l : Loader α) (k' : Nat) : Prop :=
  ∀ s : State, s.offset + k ≤ buf.length →
    (∃ a o, r.run s = .ok a { s with offset := o } ∧ o + k' ≤ buf.length ∧
      l.run (buf.drop s.offset) = some (a, buf.drop o)) ∨
    (∃ s', r.run s = .error .returnFalse s' ∧ s'.metadata = s.metadata ∧
      l.run (buf.drop s.offset) = none)

/-- A loader that gives up on fewer than `n` bytes. -/
def Needs (n : Nat) (l : Loader α) : Prop := ∀ bs : Bytes, bs.length < n → l.run bs = none

/-- A loader that takes exactly `n` bytes when it succeeds. -/
def Takes (n : Nat) (l : Loader α) : Prop :=
  ∀ bs a rest, l.run bs = some (a, rest) → bs.length = n + rest.length

theorem takes_loadBytes (n : Nat) : Takes n (loadBytes n) := by
  intro bs a rest h
  change loadBytes n bs = _ at h
  by_cases hn : bs.length < n
  · simp [loadBytes, hn] at h
  · simp only [loadBytes, if_neg hn, Option.some.injEq, Prod.mk.injEq] at h
    rw [← h.2, List.length_drop]
    omega

theorem Takes.map {n : Nat} {l : Loader α} (f : α → β) (h : Takes n l) :
    Takes n (do return f (← l)) := by
  intro bs b rest hrun
  rw [StateT.run_bind] at hrun
  obtain ⟨⟨a, _⟩, hl, hpure⟩ := Option.bind_eq_some_iff.1 hrun
  cases hpure
  exact h bs a _ hl

theorem takes_loadLE (w : Nat) : Takes w (loadLE w) := (takes_loadBytes w).map leValue

theorem takes_loadByte : Takes 1 loadByte := (takes_loadBytes 1).map fun bs : Bytes => bs.headD 0

/-- Needs add up along a sequence. -/
theorem Takes.needs_bind {n k : Nat} {l : Loader α} {g : α → Loader β} (h : Takes n l)
    (hg : ∀ a, Needs k (g a)) : Needs (n + k) (l >>= g) := by
  intro bs hbs
  rw [StateT.run_bind]
  cases hl : l.run bs with
  | none => rfl
  | some p =>
    have := h bs p.1 p.2 hl
    exact hg p.1 p.2 (by omega)

theorem needs_loadBytes (n : Nat) : Needs n (loadBytes n) := by
  intro bs hbs
  show loadBytes n bs = none
  rw [loadBytes, if_pos hbs]

theorem Needs.bind {n : Nat} {l : Loader α} (h : Needs n l) (g : α → Loader β) :
    Needs n (l >>= g) := by
  intro bs hbs
  rw [StateT.run_bind, h bs hbs]
  rfl

theorem needs_loadLE (w : Nat) : Needs w (loadLE w) := (needs_loadBytes w).bind _

theorem needs_loadByte : Needs 1 loadByte := (needs_loadBytes 1).bind _

theorem follows_pure (a : α) (k : Nat) : Follows buf k (pure a) (pure a) k :=
  fun s hs => Or.inl ⟨a, s.offset, rfl, hs, rfl⟩

theorem Follows.bind {k k' k'' : Nat} {r : Reader α} {l : Loader α} {f : α → Reader β}
    {g : α → Loader β} (h : Follows buf k r l k') (h' : ∀ a, Follows buf k' (f a) (g a) k'') :
    Follows buf k (r >>= f) (l >>= g) k'' := by
  intro s hs
  rcases h s hs with ⟨a, o, hr, ho, hl⟩ | ⟨s', hr, hm, hl⟩
  · rw [EStateM.run_bind, hr, StateT.run_bind, hl]
    exact h' a { s with offset := o } ho
  · refine Or.inr ⟨s', ?_, hm, ?_⟩
    · rw [EStateM.run_bind, hr]
    · rw [StateT.run_bind, hl]
      rfl

/-- A copy behind its check reads what the loader reads. -/
theorem follows_copy (n k : Nat) : Follows buf (n + k) (copy buf n) (loadBytes n) k := by
  intro s hs
  have hbound : s.offset + n ≤ buf.length := by omega
  refine Or.inl ⟨(buf.drop s.offset).take n, s.offset + n, ?_, by omega, ?_⟩
  · show (if s.offset + n ≤ buf.length then _ else _ : Reader Bytes) s = _
    rw [if_pos hbound]
    rfl
  · show loadBytes n (buf.drop s.offset) = _
    rw [loadBytes, if_neg (by rw [List.length_drop]; omega), List.drop_drop]

theorem Follows.map {k k' : Nat} {r : Reader α} {l : Loader α} (f : α → β)
    (h : Follows buf k r l k') : Follows buf k (do return f (← r)) (do return f (← l)) k' :=
  Follows.bind (f := fun a => pure (f a)) (g := fun a => pure (f a)) h
    fun a => follows_pure (f a) k'

theorem follows_copyLE (w k : Nat) : Follows buf (w + k) (copyLE buf w) (loadLE w) k :=
  (follows_copy w k).map leValue

theorem follows_copyByte (k : Nat) : Follows buf (1 + k) (copyByte buf) loadByte k :=
  (follows_copy 1 k).map fun bs : Bytes => bs.headD 0

/-- A check in front of copies: where it fails, the loader gives up as well. -/
theorem follows_require {n k k' : Nat} {r : Unit → Reader α} {l : Loader α}
    (h : Follows buf n (r ()) l k') (hneeds : Needs n l) :
    Follows buf k (require buf n >>= r) l k' := by
  intro s _
  by_cases hn : s.offset + n > buf.length
  · refine Or.inr ⟨s, ?_, rfl, hneeds _ (by rw [List.length_drop]; omega)⟩
    show EStateM.bind (if s.offset + n > buf.length then _ else _ : Reader Unit) r s = _
    rw [if_pos hn]
    rfl
  · have hrun : (require buf n >>= r).run s = (r ()).run s := by
      show EStateM.bind (if s.offset + n > buf.length then _ else _ : Reader Unit) r s = _
      rw [if_neg hn]
      rfl
    rw [hrun]
    exact h s (by omega)

/-- A number behind its check, and what follows it. -/
theorem follows_checked {w k k' : Nat} {f : Nat → Reader α} {g : Nat → Loader α}
    (h : ∀ v, Follows buf 0 (f v) (g v) k') :
    Follows buf k (do require buf w; let v ← copyLE buf w; f v) (loadLE w >>= g) k' :=
  follows_require (Follows.bind (follows_copyLE w 0) h) ((needs_loadLE w).bind g)

theorem follows_readString (k : Nat) : Follows buf k (readString buf) loadString 0 :=
  follows_checked fun len => follows_require (follows_copy len 0) (needs_loadBytes len)

theorem follows_readExtensions (n : Nat) (extensions : AssocMap Bytes Bytes) :
    Follows buf 0 (readExtensions buf n extensions) (loadExtensions n extensions) 0 := by
  induction n generalizing extensions with
  | zero => exact follows_pure _ 0
  | succ n ih =>
    exact (follows_readString 0).bind fun ek => (follows_readString 0).bind fun ev => ih _

theorem follows_readColumn : Follows buf 0 (readColumn buf) loadColumn 0 := by
  refine (follows_readString 0).bind fun name => follows_require (n := 3 + 8) ?_ ?_
  · refine (follows_copyByte 10).bind fun type => (follows_copyByte 9).bind fun nullable =>
      (follows_copyByte 8).bind fun primaryKey => (follows_copyLE 8 0).bind fun maxByteLength => ?_
    exact follows_checked fun ecount => (follows_readExtensions ecount .empty).map fun extensions => _
  · -- one check for three bytes and the length bound: the loader needs as many, a field at a time
    exact takes_loadByte.needs_bind (k := 10) fun type => takes_loadByte.needs_bind (k := 9)
      fun nullable => takes_loadByte.needs_bind (k := 8) fun primaryKey => (needs_loadLE 8).bind _

theorem follows_readColumns (n : Nat) :
    Follows buf 0 (readColumns buf n) (loadColumns n) 0 := by
  induction n with
  | zero => exact follows_pure _ 0
  | succ n ih => exact follows_readColumn.bind fun col => ih.map fun cols => col :: cols

theorem follows_readPartition : Follows buf 0 (readPartition buf) loadPartition 0 := by
  refine follows_require (Follows.bind (follows_copyByte 0) fun flag => ?_) (needs_loadByte.bind _)
  by_cases hflag : (flag != 0) = true
  · rw [if_pos hflag, if_pos hflag]
    refine follows_require (Follows.bind (follows_copyByte 0) fun kind => ?_) (needs_loadByte.bind _)
    refine (follows_readString 0).bind fun column => ?_
    exact follows_checked fun shardCount => follows_pure _ 0
  · rw [if_neg hflag, if_neg hflag]
    exact follows_pure _ 0

theorem follows_readTable : Follows buf 0 (readTable buf) loadTable 0 := by
  refine (follows_readString 0).bind fun name => follows_checked fun rootId =>
    follows_checked fun autoId => follows_checked fun ccount => ?_
  exact (follows_readColumns ccount).bind fun columns => follows_readPartition.map fun partition => _

/-- The loop over the tables registers the tables that the checked loop registers. -/
theorem returned_readTables (n : Nat) (s : State) (hs : s.offset ≤ buf.length) :
    returned ((readTables buf n).run s) =
      .ok ((loadTables n s.metadata.tables (buf.drop s.offset)).1,
        { s.metadata with tables := (loadTables n s.metadata.tables (buf.drop s.offset)).2 }) := by
  induction n generalizing s with
  | zero => rfl
  | succ n ih =>
    rw [readTables, loadTables, EStateM.run_bind]
    rcases follows_readTable s hs with ⟨t, o, hr, ho, hl⟩ | ⟨s', hr, hm, hl⟩
    · rw [hr, hl]
      exact ih { s with
        offset := o
        metadata := { s.metadata with tables := s.metadata.tables.assign t.1 t.2 } } ho
    · rw [hr, hl]
      show Except.ok (false, s'.metadata) = _
      rw [hm]

theorem run_require {n : Nat} {s : State} (h : s.offset + n ≤ buf.length) :
    (require buf n).run s = .ok () s := by
  show (if s.offset + n > buf.length then _ else _ : Reader Unit) s = _
  rw [if_neg (not_lt.2 h)]
  rfl

theorem run_require_short {n : Nat} {s : State} (h : buf.length < s.offset + n) :
    (require buf n).run s = .error .returnFalse s := by
  show (if s.offset + n > buf.length then _ else _ : Reader Unit) s = _
  rw [if_pos h]
  rfl

theorem run_copyLE {w : Nat} {s : State} (h : s.offset + w ≤ buf.length) :
    (copyLE buf w).run s =
      .ok (leValue ((buf.drop s.offset).take w)) { s with offset := s.offset + w } := by
  have hcopy : (copy buf w).run s = .ok ((buf.drop s.offset).take w)
      { s with offset := s.offset + w } := by
    show (if s.offset + w ≤ buf.length then _ else _ : Reader Bytes) s = _
    rw [if_pos h]
    rfl
  rw [copyLE, EStateM.run_bind, hcopy]
  rfl

theorem run_loadLE {w : Nat} {bs : Bytes} (h : w ≤ bs.length) :
    (loadLE w).run bs = some (leValue (bs.take w), bs.drop w) := by
  have hload : (loadBytes w).run bs = some (bs.take w, bs.drop w) := if_neg (not_lt.2 h)
  rw [loadLE, StateT.run_bind, hload]
  rfl

/-- The count of tables and the tables. -/
theorem returned_readCount (s : State) :
    returned ((do require buf 4; let tcount ← copyLE buf 4; readTables buf tcount : Reader Unit).run
      s) = .ok (match (loadLE 4).run (buf.drop s.offset) with
        | none => (false, s.metadata)
        | some (count, rest) =>
          ((loadTables count s.metadata.tables rest).1,
            { s.metadata with tables := (loadTables count s.metadata.tables rest).2 })) := by
  by_cases hshort : buf.length < s.offset + 4
  · rw [EStateM.run_bind, run_require_short hshort,
      needs_loadLE 4 _ (by rw [List.length_drop]; omega)]
    rfl
  · rw [EStateM.run_bind, run_require (not_lt.1 hshort),
      run_loadLE (by rw [List.length_drop]; omega), List.drop_drop]
    dsimp only
    rw [EStateM.run_bind, run_copyLE (not_lt.1 hshort)]
    exact returned_readTables _ { s with offset := s.offset + 4 } (not_lt.1 hshort)

/-- The reader does what the checked reader does, on every buffer: it never copies from outside. -/
theorem readMetadata_eq (buf : Bytes) (m : Metadata) :
    readMetadata buf m = .ok (OpenDB.loadMetadata m buf) := by
  rw [readMetadata, readBody, OpenDB.loadMetadata]
  by_cases hshort : buf.length < 16
  · have hneeds : Needs 16 (do return (← loadLE 8, ← loadLE 8) : Loader (Nat × Nat)) :=
      (takes_loadLE 8).needs_bind (k := 8) fun visibleSeq => (needs_loadLE 8).bind _
    rw [EStateM.run_bind, run_require_short (s := ⟨0, m⟩) (by simpa using hshort), hneeds buf hshort]
    rfl
  · -- both sequence numbers are there; what follows is the count of tables and the tables
    have hseqs : ((do return (← loadLE 8, ← loadLE 8)) : Loader (Nat × Nat)).run buf =
        some ((leValue (buf.take 8), leValue ((buf.drop 8).take 8)), buf.drop 16) := by
      rw [StateT.run_bind, run_loadLE (by omega)]
      show ((loadLE 8 >>= fun y => pure (leValue (buf.take 8), y)) : Loader (Nat × Nat)).run
        (buf.drop 8) = _
      rw [StateT.run_bind, run_loadLE (by rw [List.length_drop]; omega)]
      show some ((leValue (buf.take 8), leValue ((buf.drop 8).take 8)), (buf.drop 8).drop 8) = _
      rw [List.drop_drop]
    rw [hseqs, EStateM.run_bind, run_require (s := ⟨0, m⟩) (by simpa using not_lt.1 hshort)]
    dsimp only
    rw [EStateM.run_bind, run_copyLE (s := ⟨0, m⟩) (by simp; omega)]
    show returned (EStateM.run (do
      let internalSeq ← copyLE buf 8
      modify fun s => { s with metadata := { s.metadata with
        internalSeq := UInt64.ofNat internalSeq } }
      require buf 4
      let tcount ← copyLE buf 4
      readTables buf tcount)
      ⟨8, { m with visibleSeq := UInt64.ofNat (leValue (buf.take 8)) }⟩) = _
    rw [EStateM.run_bind, run_copyLE (s := ⟨8, _⟩) (by simp; omega)]
    have := @returned_readCount buf ⟨16, { m with
      visibleSeq := UInt64.ofNat (leValue (buf.take 8))
      internalSeq := UInt64.ofNat (leValue ((buf.drop 8).take 8)) }⟩
    exact this

end MetadataReader

/-! ## The size of an encoding -/

/-- A string and the 32 bits of its length. -/
def stringSize (s : Bytes) : Nat := 4 + s.length

def extensionSize (e : Bytes × Bytes) : Nat := stringSize e.1 + stringSize e.2

def columnSize (col : ColumnDef) : Nat :=
  stringSize col.name + 3 + 8 + 4 + (col.extensions.entries.map extensionSize).sum

def partitionSize : Option PartitionPolicy → Nat
  | none => 1
  | some pp => 2 + stringSize pp.column + 4

def tableSize (t : Bytes × TableInfo) : Nat :=
  stringSize t.1 + 4 + 8 + 4 + (t.2.schema.columns.map columnSize).sum +
    partitionSize t.2.schema.partition

/-- The bytes that the metadata takes with every string written out. -/
def Metadata.encodingSize (m : Metadata) : Nat :=
  8 + 8 + 4 + (m.tables.entries.map tableSize).sum

theorem length_stringBytes_le (s : Bytes) : (stringBytes s).length ≤ stringSize s := by
  simp only [stringBytes, stringSize, List.length_append, length_leBytes, List.length_take]
  omega

/-- Pieces that are each within a size are within the sum of the sizes. -/
theorem length_flatten_le {α : Type} {f : α → Bytes} {size : α → Nat} {l : List α}
    (h : ∀ a ∈ l, (f a).length ≤ size a) : (l.map f).flatten.length ≤ (l.map size).sum := by
  rw [List.length_flatten, List.map_map]
  exact List.sum_le_sum h

theorem length_columnBytes_le (col : ColumnDef) : (columnBytes col).length ≤ columnSize col := by
  have hname := length_stringBytes_le col.name
  have hexts := length_flatten_le (l := col.extensions.entries) (f := extensionBytes)
    fun e _ => show (extensionBytes e).length ≤ extensionSize e by
      rw [extensionBytes, List.length_append]
      exact Nat.add_le_add (length_stringBytes_le _) (length_stringBytes_le _)
  simp only [columnBytes, columnSize, List.length_append, length_leBytes, List.length_singleton]
  omega

theorem length_partitionBytes_le (pp : Option PartitionPolicy) :
    (partitionBytes pp).length ≤ partitionSize pp := by
  cases pp with
  | none => exact le_refl 1
  | some pp =>
    have hcolumn := length_stringBytes_le pp.column
    simp only [partitionBytes, partitionSize, List.length_append, length_leBytes,
      List.length_singleton]
    omega

theorem length_tableBytes_le (t : Bytes × TableInfo) : (tableBytes t).length ≤ tableSize t := by
  have hname := length_stringBytes_le t.1
  have hcols := length_flatten_le (l := t.2.schema.columns) fun col _ => length_columnBytes_le col
  have hpart := length_partitionBytes_le t.2.schema.partition
  simp only [tableBytes, tableSize, List.length_append, length_leBytes]
  omega

theorem length_metadataBytes_le (m : Metadata) : (metadataBytes m).length ≤ m.encodingSize := by
  have htables := length_flatten_le (l := m.tables.entries) fun t _ => length_tableBytes_le t
  simp only [metadataBytes, Metadata.encodingSize, List.length_append, length_leBytes]
  omega

/-- An encoding that fits has no string whose length overflows its 32 bits. -/
theorem Metadata.short_of_encodingSize {m : Metadata}
    (h : m.encodingSize ≤ Pager.dataPagePayloadSize) : m.Short := by
  have hpage : Pager.dataPagePayloadSize = 4088 := rfl
  intro t ht
  have htable : tableSize t ≤ (m.tables.entries.map tableSize).sum :=
    List.le_sum_of_mem (List.mem_map_of_mem ht)
  simp only [Metadata.encodingSize] at h
  simp only [tableSize, stringSize] at htable
  refine ⟨by omega, fun col hcol => ?_, fun pp hpp => ?_⟩
  · have hle : columnSize col ≤ (t.2.schema.columns.map columnSize).sum :=
      List.le_sum_of_mem (List.mem_map_of_mem hcol)
    simp only [columnSize, stringSize] at hle
    refine ⟨by omega, fun e he => ?_⟩
    have hext : extensionSize e ≤ (col.extensions.entries.map extensionSize).sum :=
      List.le_sum_of_mem (List.mem_map_of_mem he)
    simp only [extensionSize, stringSize] at hext
    omega
  · rw [hpp] at htable
    simp only [partitionSize, stringSize] at htable
    omega

/-! ## The round trip -/

/-- What the page keeps of a column: the type by the byte that stands for it. -/
def ColumnDef.saved (col : ColumnDef) : Bytes × UInt8 × Bool × Bool × UInt64 × AssocMap Bytes Bytes :=
  (col.name, col.type.toByte, col.nullable, col.primaryKey, col.maxByteLength, col.extensions)

/-- What the page keeps of a partition policy. -/
def PartitionPolicy.saved (pp : PartitionPolicy) : UInt8 × Bytes × UInt32 :=
  (pp.kind.toByte, pp.column, pp.shardCount)

theorem ValueType.toByte_ofByte (code : UInt8) : (ValueType.ofByte code).toByte = code := by
  unfold ValueType.ofByte
  split
  all_goals first
    | rfl
    | next h => exact (UInt8.toNat_inj.1 h).symm

theorem PartitionKind.toByte_ofByte (code : UInt8) : (PartitionKind.ofByte code).toByte = code := by
  unfold PartitionKind.ofByte
  split
  all_goals first
    | rfl
    | next h => exact (UInt8.toNat_inj.1 h).symm

theorem ColumnDef.saved_persisted (col : ColumnDef) : col.persisted.saved = col.saved := by
  simp [ColumnDef.saved, ColumnDef.persisted, ValueType.toByte_ofByte]

theorem PartitionPolicy.saved_persisted (pp : PartitionPolicy) : pp.persisted.saved = pp.saved := by
  simp [PartitionPolicy.saved, PartitionPolicy.persisted, PartitionKind.toByte_ofByte]

/-- `info'` is the table `info` of the name `name`, as far as the page keeps it. -/
structure TableInfo.Restores (info' : TableInfo) (name : Bytes) (info : TableInfo) : Prop where
  name : info'.schema.table = name
  rootPageId : info'.rootPageId = info.rootPageId
  autoId : info'.autoId = info.autoId
  columns : info'.schema.columns.map ColumnDef.saved = info.schema.columns.map ColumnDef.saved
  partition : info'.schema.partition.map PartitionPolicy.saved =
    info.schema.partition.map PartitionPolicy.saved

theorem TableInfo.restores_persisted (name : Bytes) (info : TableInfo) :
    (info.persisted name).Restores name info where
  name := rfl
  rootPageId := rfl
  autoId := rfl
  columns := by
    simp only [TableInfo.persisted, List.map_map]
    exact List.map_congr_left fun col _ => col.saved_persisted
  partition := by
    cases hpp : info.schema.partition with
    | none => simp [TableInfo.persisted, hpp]
    | some pp => simp [TableInfo.persisted, hpp, pp.saved_persisted]

open LocalFileStorageProvider in
/-- Metadata whose encoding fits is read back from the page that `saveMetadata` wrote, over whatever
is registered already, and no page content makes the reader copy from outside its buffer. -/
theorem readMetadata_of_saveMetadata :
    (∀ (s : LocalFileStorageProvider) (m₀ : Metadata), s.metaPageId ≠ 0 →
      s.metaPageId.toNat < s.pager.header.pageCount.toNat →
      s.metadata.encodingSize ≤ Pager.dataPagePayloadSize →
      ∃ s₁ page m, saveMetadata.run s = .ok () s₁ ∧ s₁.pager.readPage s.metaPageId = some page ∧
        MetadataReader.readMetadata page m₀ = .ok (true, m) ∧
        m.visibleSeq = s.visibleSeq ∧ m.internalSeq = s.internalSeq ∧
        (∀ name info, s.tables.find name = some info →
          ∃ info', m.tables.find name = some info' ∧ info'.Restores name info) ∧
        ∀ name, s.tables.find name = none → m.tables.find name = m₀.tables.find name) ∧
    ∀ (page : Bytes) (m : Metadata), ∃ r, MetadataReader.readMetadata page m = .ok r := by
  refine ⟨fun s m₀ hid hcount hsize => ?_, fun page m => ⟨_, MetadataReader.readMetadata_eq page m⟩⟩
  have hshort := Metadata.short_of_encodingSize hsize
  have hfits : s.metadata.Fits := (length_metadataBytes_le _).trans hsize
  rcases saveMetadata_cases hid hcount with ⟨-, hsave⟩ | ⟨hbig, -⟩
  · refine ⟨s.saved, metadataPage s.metadata, ⟨s.visibleSeq, s.internalSeq,
        s.tables.entries.foldl (fun a t => a.assign t.1 (t.2.persisted t.1)) m₀.tables⟩, hsave,
      Pager.readPage_withPage_self (length_metadataPage hfits) hid hcount, ?_, rfl, rfl, ?_, ?_⟩
    · rw [MetadataReader.readMetadata_eq, loadMetadata_metadataPage_over m₀ hfits hshort]
      rfl
    · intro name info hfind
      obtain ⟨A, B, hentries, -⟩ := AssocMap.exists_of_find hfind
      have hmem : (name, info) ∈ s.tables.entries := by simp [hentries]
      refine ⟨info.persisted name, ?_, info.restores_persisted name⟩
      exact AssocMap.find_foldl_assign_of_mem s.tables.distinct hmem
    · intro name hfind
      exact AssocMap.find_foldl_assign_of_not_mem (AssocMap.find_eq_none_iff.1 hfind)
  · exact absurd hfits hbig

/-- A hash-partitioned table with one column that has an extension. -/
def partitionedTable : TableInfo :=
  ⟨⟨ascii "t", [⟨ascii "c", .text, true, false, 10, AssocMap.empty.assign (ascii "k") (ascii "v"),
    none⟩], some ⟨.hash, ascii "c", 4, [], []⟩⟩, 2, 7⟩

open LocalFileStorageProvider in
/-- The partitioned table comes back from its page. -/
theorem readMetadata_of_saveMetadata_partitioned :
    ∃ (s s₁ : LocalFileStorageProvider) (page : Bytes) (m : Metadata) (info : TableInfo),
      s.tables.find (ascii "t") = some partitionedTable ∧ saveMetadata.run s = .ok () s₁ ∧
      s₁.pager.readPage s.metaPageId = some page ∧
      MetadataReader.readMetadata page ⟨0, 0, .empty⟩ = .ok (true, m) ∧
      m.tables.find (ascii "t") = some info ∧ info.Restores (ascii "t") partitionedTable := by
  obtain ⟨s₁, page, m, hsave, hread, hload, -, -, htables, -⟩ := readMetadata_of_saveMetadata.1
    ⟨(Pager.new 16 (by decide)).extended, 1, AssocMap.empty.assign (ascii "t") partitionedTable,
      .empty, 3, 9, true⟩ ⟨0, 0, .empty⟩ (by decide) (by decide) (by decide)
  obtain ⟨info, hfind, hrestores⟩ := htables (ascii "t") partitionedTable (by decide)
  exact ⟨_, s₁, page, m, info, by decide, hsave, hread, hload, hfind, hrestores⟩

end OpenDB
