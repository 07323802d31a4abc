import OpenDB.Storage.BuddyPageAllocator

/-!
# The pager

A file of 4 KiB pages. Page 0 is the header page: magic number, version, page count, allocator
diagnostics and a snapshot of the free runs. Every other page carries the CRC of its payload, and a
page whose CRC does not match is not read.

Two habits of the source decide what survives a restart and are kept as they are: the header page is
rewritten only when the file is extended, when it is migrated and when it is closed, and the
in-memory magic number is set only when a new header is initialised, not when one is loaded.

The disk is a parameter: it holds `capacity` pages, fewer than there are page ids, and extending the
file beyond it throws. Overwriting an existing page never fails.

`Owns p live` says that the pages `live` are in use: they are distinct, on file, and apart from the
free pool. Allocation adds a page to them (`allocatePage_ok`), freeing takes one away
(`freePage_ok`), and neither touches the contents of another page.
-/

set_option autoImplicit false

namespace OpenDB

open OpenDB.Library

namespace Pager

def pageSize : Nat := 4096

def invalidPage : PageId := 0xFFFFFFFF

/-- `MAGIC`, "ATOM". -/
def magic : UInt32 := 0x41544F4D

/-- `VERSION`. -/
def version : UInt16 := 2

def dataPageHeaderSize : Nat := 8

def dataPagePayloadSize : Nat := pageSize - dataPageHeaderSize

/-- Offset of the free-run snapshot in page 0. -/
def kFreeRunsOffset : Nat := 32

/-- Runs that fit behind the snapshot count. -/
def kMaxPersistedRuns : Nat := (pageSize - kFreeRunsOffset - 4) / 8

/-- One entry of the CRC table: eight shifts of the reversed polynomial. -/
def crcTable (i : UInt32) : UInt32 :=
  (List.range 8).foldl
    (fun (c : UInt32) _ => if c &&& 1 = 1 then (0xEDB88320 : UInt32) ^^^ (c >>> 1) else c >>> 1) i

/-- `Pager::crc32`. -/
def crc32 (data : Bytes) : UInt32 :=
  data.foldl (fun crc b => crcTable ((crc ^^^ b.toUInt32) &&& 0xFF) ^^^ (crc >>> 8)) 0xFFFFFFFF
    ^^^ 0xFFFFFFFF

end Pager

/-- A page of the file. -/
structure RawPage where
  bytes : Bytes
  size : bytes.length = Pager.pageSize

/-- The bytes after the CRC and the reserved word. -/
def RawPage.payload (page : RawPage) : Bytes := page.bytes.drop Pager.dataPageHeaderSize

/-- The number in `n` bytes at an offset of a page. -/
def RawPage.field (page : RawPage) (offset n : Nat) : Nat :=
  leValue ((page.bytes.drop offset).take n)

def RawPage.storedCrc (page : RawPage) : UInt32 := UInt32.ofNat (page.field 0 4)

def RawPage.zero : RawPage := ⟨List.replicate Pager.pageSize 0, List.length_replicate⟩

/-- A buffer filled up with zeros to the size of a page. -/
def RawPage.ofBytes (bs : Bytes) : RawPage :=
  ⟨bs.take Pager.pageSize ++ List.replicate (Pager.pageSize - bs.length) 0, by
    rw [List.length_append, List.length_take, List.length_replicate]
    omega⟩

/-- The file as a sequence of whole pages. -/
abbrev Image := List RawPage

/-- Write at a page offset; a gap behind the end of the file reads as zeros. -/
def Image.write (file : Image) (i : Nat) (page : RawPage) : Image :=
  if i < file.length then file.set i page
  else file ++ List.replicate (i - file.length) RawPage.zero ++ [page]

/-- The in-memory copy of the header. -/
structure PagerHeader where
  magic : UInt32
  version : UInt16
  pageCount : PageId
  freeHead : PageId
  deriving DecidableEq, Repr

/-- An open pager. -/
structure Pager where
  file : Image
  header : PagerHeader
  allocator : BuddyPageAllocator
  capacity : Nat
  capacity_lt : capacity < 2 ^ 32

namespace Pager

/-! ## Pages -/

/-- `readRaw`. -/
def readRaw (p : Pager) (id : PageId) : Option RawPage :=
  if p.header.pageCount ≤ id then none else p.file[id.toNat]?

/-- `readPage`: the payload, unless the id is out of range or the CRC does not match. -/
def readPage (p : Pager) (id : PageId) : Option Bytes :=
  if id = 0 ∨ p.header.pageCount ≤ id then none
  else
    match p.readRaw id with
    | none => none
    | some raw => if raw.storedCrc = crc32 raw.payload then some raw.payload else none

/-- One run of the snapshot. -/
def runBytes (r : FreeRun) : Bytes := leBytes 4 r.slabClass.toNat ++ leBytes 4 r.start.toNat

/-- The runs that are persisted: those past the cap are dropped. -/
def persistedRuns (p : Pager) : List FreeRun := p.allocator.saveFreeRuns.take kMaxPersistedRuns

/-- Contents of page 0. -/
def headerBytes (p : Pager) : Bytes :=
  leBytes 4 p.header.magic.toNat ++ leBytes 2 p.header.version.toNat ++ [0, 0] ++
    leBytes 4 p.header.pageCount.toNat ++
    (if p.header.version = 1 then leBytes 4 p.header.freeHead.toNat
     else p.allocator.serializeHeader ++ [0, 0, 0, 0] ++ leBytes 4 p.persistedRuns.length ++
       (p.persistedRuns.map runBytes).flatten)

/-- `flushHeader` with page 0 on file. -/
def writeHeader (p : Pager) : Pager :=
  { p with file := p.file.write 0 (RawPage.ofBytes p.headerBytes) }

/-- The exception of a disk that is full. -/
def extendFailed : Fault := .runtimeError (ascii "Pager::extendFile: failed to extend file")

/-- Append a zero page. -/
def appendPage : EStateM Fault Pager Unit := fun p =>
  if p.file.length < p.capacity then
    .ok () { p with
      file := p.file ++ [RawPage.zero]
      header := { p.header with pageCount := p.header.pageCount + 1 } }
  else .error extendFailed p

/-- Append `n` zero pages. -/
def appendPages : Nat → EStateM Fault Pager Unit
  | 0 => return ()
  | n + 1 => do
    appendPage
    appendPages n

/-- `writeRaw`. A write beyond the page count first extends the file and the header. -/
def writeRaw (id : PageId) (page : RawPage) : EStateM Fault Pager Unit := do
  let p ← get
  if p.header.pageCount ≤ id then
    appendPages (id.toNat + 1 - p.header.pageCount.toNat)
    modify writeHeader
  modify fun p => { p with file := p.file.write id.toNat page }

/-- `flushHeader`. -/
def flushHeader : EStateM Fault Pager Unit := do
  let p ← get
  writeRaw 0 (RawPage.ofBytes p.headerBytes)

/-- `extendFile`: the header page is flushed before the allocator learns of the new pages. -/
def extendFile (n : Nat) : EStateM Fault Pager PageId := do
  if n = 0 then return invalidPage
  let start := (← get).header.pageCount
  appendPages n
  flushHeader
  modify fun p => { p with allocator := p.allocator.onFileExtended start n }
  return start

/-- `allocatePage`. -/
def allocatePage : EStateM Fault Pager PageId := do
  let p ← get
  match p.allocator.allocatePages 1 with
  | some (start, allocator) =>
    set { p with allocator := allocator }
    return start
  | none => extendFile 1

/-- `freePage`. -/
def freePage (id : PageId) : EStateM Fault Pager Unit := fun p =>
  if id = 0 ∨ p.header.pageCount ≤ id then .ok () p
  else
    match p.allocator.freePages id 1 with
    | .ok allocator => .ok () { p with allocator := allocator }
    | .error e => .error e p

/-- The pages of a run of `n` pages, as a caller gets them. -/
def pagesFrom (start : PageId) (n : Nat) : List PageId :=
  (List.range n).map fun i => start + UInt32.ofNat i

/-- `allocatePages`. -/
def allocatePages (n : Nat) : EStateM Fault Pager (List PageId) := do
  if n = 0 then return []
  let p ← get
  match p.allocator.allocatePages n with
  | some (start, allocator) =>
    set { p with allocator := allocator }
    return pagesFrom start n
  | none =>
    let start ← extendFile n
    return pagesFrom start n

/-- `freePages`. -/
def freePages (start : PageId) (n : Nat) : EStateM Fault Pager Unit := fun p =>
  if start = 0 ∨ n = 0 ∨ p.header.pageCount.toNat < start.toNat + n then .ok () p
  else
    match p.allocator.freePages start n with
    | .ok allocator => .ok () { p with allocator := allocator }
    | .error e => .error e p

/-- A data page: CRC, reserved word, payload. -/
def dataPage (data : Bytes) : RawPage :=
  RawPage.ofBytes (leBytes 4 (crc32 data).toNat ++ [0, 0, 0, 0] ++ data)

/-- `writePage`. -/
def writePage (id : Option PageId) (data : Bytes) : EStateM Fault Pager PageId := do
  if data.length ≠ dataPagePayloadSize then
    throw (.runtimeError
      (ascii "Pager::writePage: data size must equal DATA_PAGE_PAYLOAD_SIZE"))
  match id with
  | some pageId =>
    if pageId = 0 ∨ (← get).header.pageCount ≤ pageId then
      throw (.runtimeError (ascii "Pager::writePage: invalid page ID"))
    writeRaw pageId (dataPage data)
    return pageId
  | none =>
    let pageId ← allocatePage
    writeRaw pageId (dataPage data)
    return pageId

/-- `close`: the header page is written one last time; what remains is the file. -/
def close : EStateM Fault Pager Image := do
  flushHeader
  return (← get).file

/-! ## Opening a file -/

/-- The free runs a header page lists; a count past the cap is structural damage and means none. -/
def snapshotRuns (page : RawPage) : List FreeRun :=
  let runCount := page.field kFreeRunsOffset 4
  if runCount ≤ kMaxPersistedRuns then
    (List.range runCount).map fun i =>
      { slabClass := UInt32.ofNat (page.field (kFreeRunsOffset + 4 + i * 8) 4)
        start := UInt32.ofNat (page.field (kFreeRunsOffset + 4 + i * 8 + 4) 4) }
  else []

/-- Walk of the v1 free chain. -/
def freeChain (p : Pager) : Nat → PageId → List PageId → List PageId
  | 0, _, seen => seen
  | fuel + 1, cur, seen =>
    if cur = invalidPage ∨ cur = 0 ∨ p.header.pageCount ≤ cur ∨ cur ∈ seen then seen
    else
      match p.readRaw cur with
      | none => cur :: seen
      | some raw => freeChain p fuel (UInt32.ofNat (raw.field 0 4)) (cur :: seen)

/-- Maximal runs of chain pages among the pages from `i` on, as start and length. -/
def freeRunsFrom (isFree : Nat → Bool) : Nat → Nat → Option (Nat × Nat) → List (Nat × Nat)
  | 0, _, none => []
  | 0, _, some run => [run]
  | n + 1, i, none =>
    if isFree i then freeRunsFrom isFree n (i + 1) (some (i, 1))
    else freeRunsFrom isFree n (i + 1) none
  | n + 1, i, some (start, len) =>
    if isFree i then freeRunsFrom isFree n (i + 1) (some (start, len + 1))
    else (start, len) :: freeRunsFrom isFree n (i + 1) none

/-- `freePages` of the allocator, for each run. -/
def freeRuns : List (Nat × Nat) → BuddyPageAllocator → Except Fault BuddyPageAllocator
  | [], a => .ok a
  | (start, len) :: runs, a => do
    let a ← a.freePages (UInt32.ofNat start) len
    freeRuns runs a

/-- `migrateV1ToV2`. -/
def migrateV1ToV2 : EStateM Fault Pager Unit := do
  let p ← get
  let count := p.header.pageCount.toNat
  let a := if 1 < count then p.allocator.onFileExtended 1 (count - 1) else p.allocator
  let chain := p.freeChain (count + 1) p.header.freeHead []
  let runs := freeRunsFrom (fun i => decide (UInt32.ofNat i ∈ chain)) (count - 1) 1 none
  match freeRuns runs a with
  | .error e => throw e
  | .ok a =>
    set { p with allocator := a, header := { p.header with version := version } }
    flushHeader

/-- `loadHeader`. The result says whether page 0 was a header page. -/
def loadHeader : EStateM Fault Pager Bool := do
  let p ← get
  match p.file[0]? with
  | none => return false
  | some page =>
    if page.field 0 4 ≠ magic.toNat then return false
    let header := { p.header with pageCount := UInt32.ofNat (page.field 8 4) }
    let v := page.field 4 2
    if v = 1 then
      set { p with
        header := { header with
          freeHead := UInt32.ofNat (page.field 12 4)
          version := 1 } }
      migrateV1ToV2
      return true
    if v = 2 then
      let count := header.pageCount.toNat
      set { p with
        header := { header with version := 2, freeHead := invalidPage }
        allocator :=
          (p.allocator.ensureBitmapSize count).loadFreeRuns (snapshotRuns page) count }
      return true
    set { p with header := header }
    return false

/-- The pager before its header is known. -/
def unloaded (file : Image) (capacity : Nat) (h : capacity < 2 ^ 32) : Pager :=
  ⟨file, ⟨0, 0, 0, invalidPage⟩, BuddyPageAllocator.new, capacity, h⟩

/-- The constructor: load the header, or initialise a new one. -/
def openFile : EStateM Fault Pager Unit := do
  if ← loadHeader then return ()
  modify fun p => { p with header := ⟨magic, version, 1, invalidPage⟩ }
  flushHeader

/-! ## What the operations do to the pages -/

theorem bytes_ofBytes (bs : Bytes) :
    (RawPage.ofBytes bs).bytes = bs.take pageSize ++ List.replicate (pageSize - bs.length) 0 :=
  rfl

theorem payload_dataPage {data : Bytes} (h : data.length = dataPagePayloadSize) :
    (dataPage data).payload = data := by
  have hlen : (leBytes 4 (crc32 data).toNat ++ [0, 0, 0, 0] ++ data).length = pageSize := by
    simp [h, dataPagePayloadSize, pageSize, dataPageHeaderSize]
  rw [RawPage.payload, dataPage, bytes_ofBytes, List.take_of_length_le hlen.le, hlen,
    Nat.sub_self, List.replicate_zero, List.append_nil]
  exact List.drop_left' (by simp [dataPageHeaderSize])

theorem storedCrc_dataPage (data : Bytes) : (dataPage data).storedCrc = crc32 data := by
  have hfit : (crc32 data).toNat < 256 ^ 4 := by
    have := (crc32 data).toNat_lt
    norm_num
    omega
  have hfield : (dataPage data).field 0 4 = (crc32 data).toNat := by
    unfold RawPage.field dataPage RawPage.ofBytes
    rw [List.drop_zero, List.append_assoc (leBytes 4 _), List.take_append_of_le_length]
    · rw [List.take_take, List.take_append_of_le_length (by simp [pageSize]), List.take_of_length_le]
      · exact leValue_leBytes_of_fits hfit
      · simp [pageSize]
    · simp [pageSize]
  rw [RawPage.storedCrc, hfield, UInt32.ofNat_toNat]

/-- The page count is positive and covered by the file, and the file fits the disk. -/
structure Backed (p : Pager) : Prop where
  pos : 0 < p.header.pageCount.toNat
  onFile : p.header.pageCount.toNat ≤ p.file.length
  onDisk : p.file.length ≤ p.capacity

theorem getElem?_write {file : Image} {i j : Nat} {page : RawPage} (h : i < file.length) :
    (Image.write file i page)[j]? = if i = j then some page else file[j]? := by
  rw [Image.write, if_pos h, List.getElem?_set]
  by_cases hij : i = j
  · subst hij
    simp [h]
  · simp [hij]

theorem getElem?_write_self (file : Image) (i : Nat) (page : RawPage) :
    (Image.write file i page)[i]? = some page := by
  unfold Image.write
  split_ifs with h
  · exact List.getElem?_set_self h
  · have hlen : (file ++ List.replicate (i - file.length) RawPage.zero).length = i := by
      rw [List.length_append, List.length_replicate]
      omega
    rw [List.getElem?_append_right hlen.le, hlen, Nat.sub_self]
    rfl

theorem length_write {file : Image} {i : Nat} {page : RawPage} (h : i < file.length) :
    (Image.write file i page).length = file.length := by
  rw [Image.write, if_pos h, List.length_set]

/-- The pager after `writePage` of an existing page. -/
def withPage (p : Pager) (id : PageId) (data : Bytes) : Pager :=
  { p with file := p.file.write id.toNat (dataPage data) }

theorem run_writePage {p : Pager} {id : PageId} {data : Bytes}
    (hlen : data.length = dataPagePayloadSize) (hid : id ≠ 0)
    (hcount : id.toNat < p.header.pageCount.toNat) :
    (writePage (some id) data).run p = .ok id (p.withPage id data) := by
  have hlt : ¬ p.header.pageCount ≤ id := by
    rw [UInt32.le_iff_toNat_le]
    omega
  simp [writePage, writeRaw, hlen, hid, hlt, withPage]

theorem readPage_withPage_self {p : Pager} {id : PageId} {data : Bytes}
    (hlen : data.length = dataPagePayloadSize) (hid : id ≠ 0)
    (hcount : id.toNat < p.header.pageCount.toNat) :
    (p.withPage id data).readPage id = some data := by
  have hlt : ¬ p.header.pageCount ≤ id := by
    rw [UInt32.le_iff_toNat_le]
    omega
  have hraw : (p.withPage id data).readRaw id = some (dataPage data) := by
    simp [readRaw, withPage, hlt, getElem?_write_self]
  rw [readPage, hraw, if_neg (by simp [withPage, hid, hlt])]
  dsimp only
  rw [payload_dataPage hlen, storedCrc_dataPage, if_pos rfl]

theorem readPage_withPage_of_ne {p : Pager} (hp : p.Backed) {id j : PageId} {data : Bytes}
    (hcount : id.toNat < p.header.pageCount.toNat) (hne : j ≠ id) :
    (p.withPage id data).readPage j = p.readPage j := by
  have hfile : id.toNat < p.file.length := by
    have := hp.onFile
    omega
  have hne' : ¬ id.toNat = j.toNat := fun e => hne (UInt32.toNat_inj.1 e.symm)
  simp [readPage, readRaw, withPage, getElem?_write hfile, hne']

theorem Backed.withPage {p : Pager} (hp : p.Backed) {id : PageId} {data : Bytes}
    (hcount : id.toNat < p.header.pageCount.toNat) : (p.withPage id data).Backed := by
  have hfile : id.toNat < p.file.length := by
    have := hp.onFile
    omega
  exact ⟨hp.pos, by rw [Pager.withPage, length_write hfile]; exact hp.onFile,
    by rw [Pager.withPage, length_write hfile]; exact hp.onDisk⟩

/-- A page that can be read is in range. -/
theorem lt_of_readPage {p : Pager} {id : PageId} {data : Bytes} (h : p.readPage id = some data) :
    id ≠ 0 ∧ id.toNat < p.header.pageCount.toNat := by
  unfold readPage at h
  split_ifs at h with hout
  rw [not_or, UInt32.le_iff_toNat_le, not_le] at hout
  exact hout

/-- The pager with one page more. -/
def grown (p : Pager) : Pager :=
  { p with
    file := p.file ++ [RawPage.zero]
    header := { p.header with pageCount := p.header.pageCount + 1 } }

/-- The pager after `extendFile 1`. -/
def extended (p : Pager) : Pager :=
  { p.grown.writeHeader with
    allocator := p.allocator.onFileExtended p.header.pageCount 1 }

/-- Page ids last as long as the disk does. -/
theorem Backed.ids {p : Pager} (hp : p.Backed) (hroom : p.file.length < p.capacity) :
    p.header.pageCount.toNat + 1 < 2 ^ 32 := by
  have h1 := hp.onFile
  have h2 := p.capacity_lt
  omega

theorem Backed.toNat_pageCount_grown {p : Pager} (hp : p.Backed) (hroom : p.file.length < p.capacity) :
    (p.header.pageCount + 1).toNat = p.header.pageCount.toNat + 1 := by
  rw [UInt32.toNat_add, UInt32.toNat_one, Nat.mod_eq_of_lt (hp.ids hroom)]

/-- Extending the file by one page, as long as page ids last. -/
theorem run_extendFile_one_of_ids {p : Pager} (hids : p.header.pageCount.toNat + 1 < 2 ^ 32)
    (hroom : p.file.length < p.capacity) :
    (extendFile 1).run p = .ok p.header.pageCount p.extended := by
  have hgrow : appendPage.run p = .ok () p.grown := by
    simp [appendPage, EStateM.run, hroom, grown]
  have hpos : ¬ p.grown.header.pageCount ≤ 0 := by
    have hcount : p.grown.header.pageCount.toNat = p.header.pageCount.toNat + 1 := by
      show (p.header.pageCount + 1).toNat = _
      rw [UInt32.toNat_add, UInt32.toNat_one, Nat.mod_eq_of_lt hids]
    rw [UInt32.le_iff_toNat_le, UInt32.toNat_zero]
    omega
  have hflush : flushHeader.run p.grown = .ok () p.grown.writeHeader := by
    simp only [flushHeader, writeRaw, EStateM.run_bind, EStateM.run_get, hpos, if_false,
      EStateM.run_modify]
    rfl
  simp only [extendFile, appendPages, EStateM.run_bind, EStateM.run_get, EStateM.run_pure,
    EStateM.run_modify, one_ne_zero, if_false, hgrow, hflush]
  rfl

theorem run_extendFile_one {p : Pager} (hp : p.Backed) (hroom : p.file.length < p.capacity) :
    (extendFile 1).run p = .ok p.header.pageCount p.extended :=
  run_extendFile_one_of_ids (hp.ids hroom) hroom

theorem run_extendFile_one_full {p : Pager} (hfull : ¬ p.file.length < p.capacity) :
    (extendFile 1).run p = .error extendFailed p := by
  have hgrow : appendPage.run p = .error extendFailed p := by
    simp [appendPage, EStateM.run, hfull]
  simp [extendFile, appendPages, hgrow]

/-- Without a free page an allocation extends the file. -/
theorem run_allocatePage_extend {p : Pager} (hpool : p.allocator.pool = []) :
    allocatePage.run p = (extendFile 1).run p := by
  have hnone := (BuddyPageAllocator.allocatePages_eq_none_iff p.allocator).2 hpool
  simp only [allocatePage, EStateM.run_bind, EStateM.run_get, hnone]

theorem run_allocatePage_full {p : Pager} (hpool : p.allocator.pool = [])
    (hfull : ¬ p.file.length < p.capacity) : allocatePage.run p = .error extendFailed p := by
  rw [run_allocatePage_extend hpool, run_extendFile_one_full hfull]

/-- Everything a page allocation can do: pop a page of the pool, extend the file, or throw with
nothing changed. -/
theorem allocatePage_cases {p : Pager} (hp : p.Backed) :
    (∃ x a, p.allocator.allocatePages 1 = some (x, a) ∧
      allocatePage.run p = .ok x { p with allocator := a }) ∨
    (p.allocator.pool = [] ∧ p.file.length < p.capacity ∧
      allocatePage.run p = .ok p.header.pageCount p.extended) ∨
    (p.allocator.pool = [] ∧ ¬ p.file.length < p.capacity ∧
      allocatePage.run p = .error extendFailed p) := by
  cases ha : p.allocator.allocatePages 1 with
  | some r =>
    obtain ⟨x, a⟩ := r
    exact Or.inl ⟨x, a, rfl, by simp [allocatePage, ha]⟩
  | none =>
    have hpool := (BuddyPageAllocator.allocatePages_eq_none_iff _).1 ha
    by_cases hroom : p.file.length < p.capacity
    · refine Or.inr (Or.inl ⟨hpool, hroom, ?_⟩)
      rw [run_allocatePage_extend hpool, run_extendFile_one hp hroom]
    · exact Or.inr (Or.inr ⟨hpool, hroom, run_allocatePage_full hpool hroom⟩)

theorem getElem?_extended {p : Pager} (hp : p.Backed) {j : Nat} (hj : j ≠ 0)
    (hlt : j < p.header.pageCount.toNat) : p.extended.file[j]? = p.file[j]? := by
  have h1 := hp.onFile
  have hlen : 0 < (p.file ++ [RawPage.zero]).length := by simp
  have hfile : p.extended.file =
      Image.write (p.file ++ [RawPage.zero]) 0 (RawPage.ofBytes p.grown.headerBytes) := rfl
  rw [hfile, getElem?_write hlen, if_neg (fun e => hj e.symm),
    List.getElem?_append_left (by omega)]

/-- Extending the file makes one page readable that was not, and changes no other. -/
theorem readPage_extended {p : Pager} (hp : p.Backed) (hroom : p.file.length < p.capacity)
    {j : PageId} (hne : j ≠ p.header.pageCount) : p.extended.readPage j = p.readPage j := by
  have hcount := hp.toNat_pageCount_grown hroom
  have hheader : p.extended.header.pageCount = p.header.pageCount + 1 := rfl
  have hrange : p.header.pageCount + 1 ≤ j ↔ p.header.pageCount ≤ j := by
    rw [UInt32.le_iff_toNat_le, UInt32.le_iff_toNat_le, hcount]
    have : j.toNat ≠ p.header.pageCount.toNat := fun e => hne (UInt32.toNat_inj.1 e)
    omega
  unfold readPage readRaw
  rw [hheader]
  simp only [hrange]
  by_cases hout : j = 0 ∨ p.header.pageCount ≤ j
  · rw [if_pos hout, if_pos hout]
  · rw [if_neg hout, if_neg hout]
    rw [not_or, UInt32.le_iff_toNat_le, not_le] at hout
    rw [getElem?_extended hp (fun e => hout.1 (UInt32.toNat_inj.1 e)) hout.2]

theorem length_extended (p : Pager) : p.extended.file.length = p.file.length + 1 := by
  have : 0 < (p.file ++ [RawPage.zero]).length := by simp
  show (Image.write (p.file ++ [RawPage.zero]) 0 _).length = _
  rw [length_write this, List.length_append, List.length_singleton]

/-- The allocator parks no run when it learns of new pages. -/
theorem freeBuddy_onFileExtended (a : BuddyPageAllocator) (start : PageId) (n : Nat) :
    (a.onFileExtended start n).freeBuddy = a.freeBuddy := by
  unfold BuddyPageAllocator.onFileExtended BuddyPageAllocator.ensureBitmapSize
  dsimp only
  split_ifs <;> rfl

theorem pool_extended (p : Pager) : p.extended.allocator.pool = p.allocator.pool := by
  rw [BuddyPageAllocator.pool, BuddyPageAllocator.pool]
  exact congrArg BuddyPageAllocator.poolOf (freeBuddy_onFileExtended _ _ _)

theorem file_zero_extended (p : Pager) :
    p.extended.file[0]? = some (RawPage.ofBytes p.grown.headerBytes) := by
  have : 0 < (p.file ++ [RawPage.zero]).length := by simp
  show (Image.write (p.file ++ [RawPage.zero]) 0 _)[0]? = _
  rw [getElem?_write this, if_pos rfl]

theorem Backed.extended {p : Pager} (hp : p.Backed) (hroom : p.file.length < p.capacity) :
    p.extended.Backed := by
  have hcount := hp.toNat_pageCount_grown hroom
  have hlen := length_extended p
  refine ⟨?_, ?_, ?_⟩
  · show 0 < (p.header.pageCount + 1).toNat
    omega
  · show (p.header.pageCount + 1).toNat ≤ _
    have := hp.onFile
    omega
  · show p.extended.file.length ≤ p.capacity
    omega

/-! ## What a step may change -/

/-- Page 0 is a header page that was written with an empty free pool and the present header. -/
def FlushedEmpty (p : Pager) : Prop :=
  ∃ q : Pager, p.file[0]? = some (RawPage.ofBytes q.headerBytes) ∧ q.header = p.header ∧
    q.allocator.pool = []

/-- From `p` to `p'` only the pages of `touched` have changed, and page 0 at most by a flush with an
empty pool. -/
structure Frame (p p' : Pager) (touched : List PageId) : Prop where
  pages : ∀ j, j ∉ touched → p'.readPage j = p.readPage j
  magic : p'.header.magic = p.header.magic
  version : p'.header.version = p.header.version
  capacity : p'.capacity = p.capacity
  gap : p'.file.length + p.header.pageCount.toNat = p.file.length + p'.header.pageCount.toNat
  page0 : (p'.file[0]? = p.file[0]? ∧ p'.header = p.header) ∨ p'.FlushedEmpty

/-- A step that does not write the header page leaves it as it was written. -/
theorem Frame.flushedEmpty {p p' : Pager} {touched : List PageId} (h : p.Frame p' touched)
    (hp : p.FlushedEmpty) : p'.FlushedEmpty := by
  rcases h.page0 with ⟨hfile, hheader⟩ | hflush
  · obtain ⟨q, hpage, hq, hpool⟩ := hp
    exact ⟨q, hfile.trans hpage, hq.trans hheader.symm, hpool⟩
  · exact hflush

theorem Frame.refl (p : Pager) : p.Frame p [] :=
  ⟨fun _ _ => rfl, rfl, rfl, rfl, rfl, Or.inl ⟨rfl, rfl⟩⟩

theorem Frame.trans {p q r : Pager} {u v : List PageId} (h : p.Frame q u) (h' : q.Frame r v) :
    p.Frame r (u ++ v) := by
  refine ⟨?_, h'.magic.trans h.magic, h'.version.trans h.version, h'.capacity.trans h.capacity,
    by have := h.gap; have := h'.gap; omega, ?_⟩
  · intro j hj
    rw [List.mem_append, not_or] at hj
    rw [h'.pages j hj.2, h.pages j hj.1]
  · rcases h'.page0 with ⟨hfile', hheader'⟩ | hflush
    · rcases h.page0 with ⟨hfile, hheader⟩ | ⟨w, hw, hwh, hwp⟩
      · exact Or.inl ⟨hfile'.trans hfile, hheader'.trans hheader⟩
      · exact Or.inr ⟨w, hfile'.trans hw, hwh.trans hheader'.symm, hwp⟩
    · exact Or.inr hflush

theorem Frame.mono {p q : Pager} {u v : List PageId} (h : p.Frame q u) (hsub : u ⊆ v) :
    p.Frame q v :=
  ⟨fun j hj => h.pages j fun hu => hj (hsub hu), h.magic, h.version, h.capacity, h.gap, h.page0⟩

theorem frame_withPage {p : Pager} (hp : p.Backed) {id : PageId} {data : Bytes} (hid : id ≠ 0)
    (hcount : id.toNat < p.header.pageCount.toNat) : p.Frame (p.withPage id data) [id] := by
  have hfile : id.toNat < p.file.length := by
    have := hp.onFile
    omega
  refine ⟨?_, rfl, rfl, rfl, congrArg (· + _) (length_write hfile), Or.inl ⟨?_, rfl⟩⟩
  · intro j hj
    exact readPage_withPage_of_ne hp hcount (by simpa using hj)
  · have hne : ¬ id.toNat = 0 := fun e => hid (UInt32.toNat_inj.1 e)
    show (Image.write p.file id.toNat (dataPage data))[0]? = _
    rw [getElem?_write hfile, if_neg hne]

/-- Pages that can still be allocated: those of the free pool and those the disk has left. -/
def room (p : Pager) : Nat := p.allocator.pool.length + (p.capacity - p.file.length)

theorem room_withPage {p : Pager} (hp : p.Backed) {id : PageId} {data : Bytes}
    (hcount : id.toNat < p.header.pageCount.toNat) : (p.withPage id data).room = p.room := by
  have hfile : id.toNat < p.file.length := by
    have := hp.onFile
    omega
  show _ + (p.capacity - (Image.write p.file id.toNat (dataPage data)).length) = _
  rw [length_write hfile]
  rfl

/-! ## Pages in use -/

/-- The pages `live` are in use. -/
structure Owns (p : Pager) (live : List PageId) : Prop where
  backed : p.Backed
  nodup : (p.allocator.pool ++ live).Nodup
  range : ∀ x ∈ p.allocator.pool ++ live, x ≠ 0 ∧ x.toNat < p.header.pageCount.toNat
  bitmap : ∀ x ∈ p.allocator.pool ++ live, x.toNat < p.allocator.allocated.length

theorem length_markPages (bits : List Bool) (start : Nat) (value : Bool) (n : Nat) :
    (BuddyPageAllocator.markPages bits start value n).length = bits.length := by
  induction n with
  | zero => rfl
  | succ n ih => rw [BuddyPageAllocator.markPages, List.length_set, ih]

theorem length_allocated_allocatePages {a a' : BuddyPageAllocator} {n : Nat} {x : PageId}
    (h : a.allocatePages n = some (x, a')) : a'.allocated.length = a.allocated.length := by
  simp only [BuddyPageAllocator.allocatePages, Option.bind_eq_bind, Option.bind_eq_some_iff,
    Option.pure_def, Option.some.injEq, Prod.mk.injEq] at h
  obtain ⟨k, -, start, -, -, rfl⟩ := h
  exact length_markPages _ _ _ _

theorem le_length_allocated_onFileExtended (a : BuddyPageAllocator) (start : PageId) (n : Nat) :
    a.allocated.length ≤ (a.onFileExtended start n).allocated.length ∧
      start.toNat + n ≤ (a.onFileExtended start n).allocated.length := by
  unfold BuddyPageAllocator.onFileExtended
  simp only [length_markPages]
  unfold BuddyPageAllocator.ensureBitmapSize
  split_ifs with h
  · exact ⟨le_refl _, h⟩
  · simp only [List.length_append, List.length_replicate]
    omega

/-- A page allocation adds a page that was not in use and changes no other page. -/
theorem allocatePage_ok {p p' : Pager} {live : List PageId} {x : PageId} (hp : p.Owns live)
    (h : allocatePage.run p = .ok x p') :
    p'.Owns (x :: live) ∧ p.Frame p' [x] ∧ p'.room + 1 = p.room := by
  rcases allocatePage_cases hp.backed with ⟨y, a, ha, hrun⟩ | ⟨hpool, hroom, hrun⟩ | ⟨-, -, hrun⟩
  -- a page of the pool
  · rw [hrun] at h
    cases h
    have hperm := BuddyPageAllocator.pool_allocatePages ha
    have hall : (p.allocator.pool ++ live).Perm (a.pool ++ x :: live) := by
      refine (hperm.append_right live).trans ?_
      rw [List.cons_append]
      exact List.perm_middle.symm
    refine ⟨⟨⟨hp.backed.pos, hp.backed.onFile, hp.backed.onDisk⟩, ?_, ?_, ?_⟩,
      ⟨fun j _ => rfl, rfl, rfl, rfl, rfl, Or.inl ⟨rfl, rfl⟩⟩, ?_⟩
    · exact hall.nodup_iff.1 hp.nodup
    · intro z hz
      exact hp.range z (hall.mem_iff.2 hz)
    · intro z hz
      show z.toNat < a.allocated.length
      rw [length_allocated_allocatePages ha]
      exact hp.bitmap z (hall.mem_iff.2 hz)
    · have hlen := hperm.length_eq
      rw [List.length_cons] at hlen
      simp only [room]
      omega
  · rw [hrun] at h
    cases h
    -- the pool is empty, and the page is the first one behind the file
    have hpool' : p.extended.allocator.pool = [] := (pool_extended p).trans hpool
    have hbits := le_length_allocated_onFileExtended p.allocator p.header.pageCount 1
    have hcount := hp.backed.toNat_pageCount_grown hroom
    have hnew : p.header.pageCount ∉ live := by
      intro hmem
      have := (hp.range _ (List.mem_append_right _ hmem)).2
      omega
    have hlive : ∀ z ∈ live, z ≠ 0 ∧ z.toNat < p.header.pageCount.toNat :=
      fun z hz => hp.range z (List.mem_append_right _ hz)
    refine ⟨⟨hp.backed.extended hroom, ?_, ?_, ?_⟩,
      ⟨fun j hj => readPage_extended hp.backed hroom (by simpa using hj), rfl, rfl, rfl, ?_,
        Or.inr ⟨p.grown, file_zero_extended p, rfl, hpool⟩⟩, ?_⟩
    · rw [hpool', List.nil_append, List.nodup_cons]
      exact ⟨hnew, (List.nodup_append.1 hp.nodup).2.1⟩
    · intro z hz
      rw [hpool', List.nil_append, List.mem_cons] at hz
      show z ≠ 0 ∧ z.toNat < (p.header.pageCount + 1).toNat
      rcases hz with rfl | hz
      · refine ⟨?_, by omega⟩
        intro e
        have := hp.backed.pos
        rw [e] at this
        exact absurd this (by simp)
      · exact ⟨(hlive z hz).1, by have := (hlive z hz).2; omega⟩
    · intro z hz
      rw [hpool', List.nil_append, List.mem_cons] at hz
      show z.toNat < (p.allocator.onFileExtended p.header.pageCount 1).allocated.length
      rcases hz with rfl | hz
      · exact hbits.2
      · have := hp.bitmap z (List.mem_append_right _ hz)
        omega
    · show p.extended.file.length + _ = _ + (p.header.pageCount + 1).toNat
      rw [length_extended, hcount]
      omega
    · have hcap : p.extended.capacity = p.capacity := rfl
      rw [room, room, hpool', hpool, length_extended, hcap]
      omega
  · rw [hrun] at h
    cases h

/-- A page allocation fails only when no page is free and the disk is full, and changes nothing. -/
theorem allocatePage_error {p p' : Pager} {e : Fault} (hp : p.Backed)
    (h : allocatePage.run p = .error e p') : p' = p ∧ p.room = 0 ∧ e = extendFailed := by
  rcases allocatePage_cases hp with ⟨y, a, ha, hrun⟩ | ⟨hpool, hroom, hrun⟩ | ⟨hpool, hfull, hrun⟩
  · rw [hrun] at h
    cases h
  · rw [hrun] at h
    cases h
  · rw [hrun] at h
    cases h
    refine ⟨rfl, ?_, rfl⟩
    rw [room, hpool, List.length_nil]
    omega

/-- A page in use can be freed; it joins the pool and no page changes. -/
theorem freePage_ok {p : Pager} {live : List PageId} {x : PageId} (hp : p.Owns (x :: live)) :
    ∃ p', (freePage x).run p = .ok () p' ∧ p'.Owns live ∧ p.Frame p' [] ∧
      p'.allocator.pool.Perm (x :: p.allocator.pool) ∧ p'.file = p.file := by
  have hx := hp.range x (by simp)
  have hbit := hp.bitmap x (by simp)
  have hin : ¬ (x = 0 ∨ p.header.pageCount ≤ x) := by
    rw [not_or, UInt32.le_iff_toNat_le, not_le]
    exact hx
  have hfree : ∃ a, p.allocator.freePages x 1 = .ok a := by
    rw [BuddyPageAllocator.freePages, if_neg (by omega), BuddyPageAllocator.classFor_one,
      if_neg (by decide)]
    exact ⟨_, rfl⟩
  obtain ⟨a, ha⟩ := hfree
  have hperm := BuddyPageAllocator.pool_freePages ha
  have hlen : a.allocated.length = p.allocator.allocated.length := by
    rw [BuddyPageAllocator.freePages, if_neg (by omega), BuddyPageAllocator.classFor_one,
      if_neg (by decide)] at ha
    cases ha
    exact length_markPages _ _ _ _
  have hall : (p.allocator.pool ++ x :: live).Perm (a.pool ++ live) :=
    List.perm_middle.trans (hperm.symm.append_right live)
  refine ⟨{ p with allocator := a }, ?_, ⟨⟨hp.backed.pos, hp.backed.onFile, hp.backed.onDisk⟩,
    ?_, ?_, ?_⟩, ⟨fun j _ => rfl, rfl, rfl, rfl, rfl, Or.inl ⟨rfl, rfl⟩⟩, hperm, rfl⟩
  · simp [freePage, EStateM.run, hin, ha]
  · exact hall.nodup_iff.1 hp.nodup
  · intro z hz
    exact hp.range z (hall.mem_iff.2 hz)
  · intro z hz
    show z.toNat < a.allocated.length
    rw [hlen]
    exact hp.bitmap z (hall.mem_iff.2 hz)

theorem Owns.withPage {p : Pager} {live : List PageId} (hp : p.Owns live) {id : PageId}
    {data : Bytes} (hcount : id.toNat < p.header.pageCount.toNat) :
    (p.withPage id data).Owns live :=
  ⟨hp.backed.withPage hcount, hp.nodup, hp.range, hp.bitmap⟩

/-- Pages in use may be listed in any order, and some may be forgotten. -/
theorem Owns.subperm {p : Pager} {live live' : List PageId} (hp : p.Owns live)
    (h : live'.Subperm live) : p.Owns live' := by
  have hsub : (p.allocator.pool ++ live').Subperm (p.allocator.pool ++ live) :=
    (List.subperm_append_left _).2 h
  refine ⟨hp.backed, ?_, ?_, ?_⟩
  · obtain ⟨l, hl, hs⟩ := hsub
    exact hl.nodup_iff.1 (hs.nodup hp.nodup)
  · intro z hz
    exact hp.range z (hsub.subset hz)
  · intro z hz
    exact hp.bitmap z (hsub.subset hz)

theorem Owns.perm {p : Pager} {live live' : List PageId} (hp : p.Owns live)
    (h : live'.Perm live) : p.Owns live' :=
  hp.subperm h.subperm

/-! ## A new file -/

/-- The header of a file that has just been made. -/
def newHeader : PagerHeader := ⟨Pager.magic, Pager.version, 1, invalidPage⟩

/-- The pager of an empty file, before its header page is written. -/
def blank (capacity : Nat) (h : capacity < 2 ^ 32) : Pager :=
  ⟨[], newHeader, BuddyPageAllocator.new, capacity, h⟩

/-- The pager of a new file. -/
def new (capacity : Nat) (h : capacity < 2 ^ 32) : Pager :=
  { blank capacity h with file := [RawPage.ofBytes (blank capacity h).headerBytes] }

theorem run_openFile_nil (capacity : Nat) (h : capacity < 2 ^ 32) :
    openFile.run (unloaded [] capacity h) = .ok () (new capacity h) := by
  have hload : loadHeader.run (unloaded [] capacity h) = .ok false (unloaded [] capacity h) := rfl
  have hflush : flushHeader.run (blank capacity h) = .ok () (new capacity h) := rfl
  rw [openFile, EStateM.run_bind, hload]
  exact hflush

/-- A new file has no pages in use. -/
theorem owns_new {capacity : Nat} (h : capacity < 2 ^ 32) (hpos : 0 < capacity) :
    (new capacity h).Owns [] := by
  refine ⟨⟨Nat.one_pos, le_refl 1, hpos⟩, ?_, ?_, ?_⟩
  · exact List.nodup_nil
  · intro x hx
    exact absurd hx List.not_mem_nil
  · intro x hx
    exact absurd hx List.not_mem_nil

theorem room_new {capacity : Nat} (h : capacity < 2 ^ 32) : (new capacity h).room = capacity - 1 := by
  show 0 + (capacity - 1) = _
  omega

end Pager

end OpenDB
