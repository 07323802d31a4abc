import OpenDB.Storage.Pager

/-!
# Opening a file again

What page 0 says is what the next process knows about the file. Here the header page is read back
field by field, and opening a file is described for the two cases there are: page 0 carries the
magic number and the pager continues with the page count and the free runs listed there
(`run_openFile_header`), or it does not and the file is initialised again, whatever else it holds
(`run_openFile_foreign`).

The pages listed as free on page 0 become the pool of the next pager, at most (`pool_reopened`). So
the pages in use stay in use as long as none of them is listed (`Owns.reopened`).
-/

set_option autoImplicit false

namespace OpenDB

open OpenDB.Library

namespace BuddyPageAllocator

/-- The pages of a list of runs. -/
def runsPages (runs : List FreeRun) : List PageId :=
  runs.flatMap fun r => runPages r.slabClass.toNat r.start

theorem runsPages_nil : runsPages [] = [] := rfl

theorem runsPages_saveFreeRuns (a : BuddyPageAllocator) : runsPages a.saveFreeRuns = a.pool := by
  rw [runsPages, saveFreeRuns, pool, poolOf]
  rw [List.flatMap_assoc]
  apply List.flatMap_congr
  intro k hk
  have hk' : (UInt32.ofNat k).toNat = k := by
    rw [List.mem_range, maxClass] at hk
    rw [UInt32.toNat_ofNat', Nat.mod_eq_of_lt (by omega)]
  rw [List.flatMap_map, classPages]
  dsimp only
  rw [hk']

theorem length_ensureBitmapSize (a : BuddyPageAllocator) (n : Nat) :
    n ≤ (a.ensureBitmapSize n).allocated.length := by
  rw [ensureBitmapSize]
  split_ifs with h
  · exact h
  · simp only [List.length_append, List.length_replicate]
    omega

theorem length_loadRun (n : Nat) (a : BuddyPageAllocator) (r : FreeRun) :
    (loadRun n a r).allocated.length = a.allocated.length := by
  rw [loadRun]
  dsimp only
  split_ifs
  · rfl
  · rfl
  · exact Pager.length_markPages _ _ _ _
  · rfl
  · exact Pager.length_markPages _ _ _ _

/-- A run that is loaded adds its own pages to the pool, or nothing. -/
theorem pool_loadRun (n : Nat) (a : BuddyPageAllocator) (r : FreeRun) :
    (loadRun n a r).pool.Subperm (runPages r.slabClass.toNat r.start ++ a.pool) := by
  have hskip : a.pool.Subperm (runPages r.slabClass.toNat r.start ++ a.pool) :=
    (List.sublist_append_right _ _).subperm
  rw [loadRun]
  dsimp only
  by_cases hout : maxClass < r.slabClass.toNat ∨ r.start = 0 ∨ n ≤ r.start.toNat
  · rw [if_pos hout]
    exact hskip
  · rw [if_neg hout]
    rw [not_or, not_lt] at hout
    have hpush : (poolOf (pushRun a.freeBuddy r.slabClass.toNat r.start)).Subperm
        (runPages r.slabClass.toNat r.start ++ a.pool) := (poolOf_pushRun hout.1 r.start).subperm
    split_ifs
    · exact hskip
    · exact hpush
    · exact hskip
    · exact hpush

theorem pool_foldl_loadRun (n : Nat) (runs : List FreeRun) (a : BuddyPageAllocator) :
    (runs.foldl (loadRun n) a).pool.Subperm (runsPages runs ++ a.pool) ∧
      (runs.foldl (loadRun n) a).allocated.length = a.allocated.length := by
  induction runs generalizing a with
  | nil =>
    rw [runsPages_nil, List.nil_append]
    exact ⟨List.Subperm.refl _, rfl⟩
  | cons r runs ih =>
    obtain ⟨hpool, hlen⟩ := ih (loadRun n a r)
    refine ⟨?_, hlen.trans (length_loadRun n a r)⟩
    have hstep : (runsPages runs ++ (loadRun n a r).pool).Subperm
        (runsPages runs ++ (runPages r.slabClass.toNat r.start ++ a.pool)) :=
      (List.subperm_append_left _).2 (pool_loadRun n a r)
    have hmove : (runsPages runs ++ (runPages r.slabClass.toNat r.start ++ a.pool)).Perm
        (runsPages (r :: runs) ++ a.pool) := by
      have hcons : runsPages (r :: runs) = runPages r.slabClass.toNat r.start ++ runsPages runs := rfl
      rw [hcons, ← List.append_assoc]
      exact List.perm_append_comm.append_right _
    rw [List.foldl_cons]
    exact (hpool.trans hstep).trans hmove.subperm

/-- Loading a snapshot: the pool holds pages of the snapshot only, and every page of the file has its
bit. -/
theorem pool_loadFreeRuns (a : BuddyPageAllocator) (runs : List FreeRun) (n : Nat) :
    (a.loadFreeRuns runs n).pool.Subperm (runsPages runs) ∧
      n ≤ (a.loadFreeRuns runs n).allocated.length := by
  obtain ⟨hpool, hlen⟩ := pool_foldl_loadRun n runs
    { a.ensureBitmapSize n with freeBuddy := fun _ => [] }
  refine ⟨?_, ?_⟩
  · have hnone : (BuddyPageAllocator.mk (fun _ => []) (a.ensureBitmapSize n).allocated).pool = [] := by
      simp [pool, poolOf, classPages]
    rw [hnone, List.append_nil] at hpool
    exact hpool
  · rw [loadFreeRuns]
    rw [hlen]
    exact length_ensureBitmapSize a n

end BuddyPageAllocator

namespace Pager

/-! ## The fields of a header page -/

/-- A number written at some place of a buffer is read back from the page. -/
theorem field_ofBytes {pre post : Bytes} {n v : Nat} (hv : v < 256 ^ n)
    (hlen : (pre ++ (leBytes n v ++ post)).length ≤ pageSize) :
    (RawPage.ofBytes (pre ++ (leBytes n v ++ post))).field pre.length n = v := by
  have hbytes : (RawPage.ofBytes (pre ++ (leBytes n v ++ post))).bytes =
      pre ++ (leBytes n v ++ (post ++ List.replicate
        (pageSize - (pre ++ (leBytes n v ++ post)).length) 0)) := by
    rw [bytes_ofBytes, List.take_of_length_le hlen, List.append_assoc, List.append_assoc]
  rw [RawPage.field, hbytes, List.drop_left, List.take_left' (length_leBytes n v)]
  exact leValue_leBytes_of_fits hv

/-- The runs behind the count on page 0. -/
def runsBytes (runs : List FreeRun) : Bytes := (runs.map runBytes).flatten

theorem length_runBytes (r : FreeRun) : (runBytes r).length = 8 := by
  simp [runBytes]

theorem length_runsBytes (runs : List FreeRun) : (runsBytes runs).length = 8 * runs.length := by
  induction runs with
  | nil => rfl
  | cons r runs ih =>
    show (runBytes r ++ runsBytes runs).length = _
    rw [List.length_append, ih, length_runBytes, List.length_cons]
    omega

/-- What stands on page 0 between the page count and the runs. -/
def allocatorBytes (p : Pager) : Bytes := p.allocator.serializeHeader ++ [0, 0, 0, 0]

theorem length_allocatorBytes (p : Pager) : p.allocatorBytes.length = 20 := by
  simp [allocatorBytes, BuddyPageAllocator.serializeHeader]

theorem length_persistedRuns (p : Pager) : p.persistedRuns.length ≤ kMaxPersistedRuns := by
  rw [persistedRuns]
  rw [List.length_take]
  exact min_le_left _ _

section Fields

variable {q : Pager}

theorem headerBytes_eq (hver : q.header.version = version) :
    q.headerBytes = leBytes 4 q.header.magic.toNat ++ (leBytes 2 q.header.version.toNat ++
      ([0, 0] ++ (leBytes 4 q.header.pageCount.toNat ++ (q.allocatorBytes ++
        (leBytes 4 q.persistedRuns.length ++ runsBytes q.persistedRuns))))) := by
  have hv : ¬ q.header.version = 1 := by
    rw [hver]
    decide
  rw [headerBytes, allocatorBytes, runsBytes]
  rw [if_neg hv]
  simp only [List.append_assoc]

theorem length_headerBytes_le (hver : q.header.version = version) :
    q.headerBytes.length = 36 + 8 * q.persistedRuns.length ∧ q.headerBytes.length ≤ pageSize := by
  have hlen : q.headerBytes.length = 36 + 8 * q.persistedRuns.length := by
    rw [headerBytes_eq hver]
    simp only [List.length_append, length_leBytes, length_allocatorBytes, length_runsBytes,
      List.length_cons, List.length_nil]
    omega
  have hruns := q.length_persistedRuns
  have hmax : kMaxPersistedRuns = 507 := rfl
  have hsize : pageSize = 4096 := rfl
  refine ⟨hlen, ?_⟩
  omega

theorem field_magic (hver : q.header.version = version) :
    (RawPage.ofBytes q.headerBytes).field 0 4 = q.header.magic.toNat := by
  have hlen := (length_headerBytes_le hver).2
  have hfit : q.header.magic.toNat < 256 ^ 4 := q.header.magic.toNat_lt
  rw [headerBytes_eq hver] at hlen ⊢
  rw [← List.nil_append (leBytes 4 _ ++ _)] at hlen ⊢
  exact field_ofBytes hfit hlen

theorem field_version (hver : q.header.version = version) :
    (RawPage.ofBytes q.headerBytes).field 4 2 = 2 := by
  have hlen := (length_headerBytes_le hver).2
  have hfit : q.header.version.toNat < 256 ^ 2 := q.header.version.toNat_lt
  have htwo : q.header.version.toNat = 2 := by
    rw [hver]
    rfl
  rw [headerBytes_eq hver] at hlen ⊢
  have hfield := field_ofBytes hfit hlen
  rw [length_leBytes] at hfield
  rw [hfield, htwo]

theorem field_pageCount (hver : q.header.version = version) :
    (RawPage.ofBytes q.headerBytes).field 8 4 = q.header.pageCount.toNat := by
  have hlen := (length_headerBytes_le hver).2
  have hfit : q.header.pageCount.toNat < 256 ^ 4 := q.header.pageCount.toNat_lt
  rw [headerBytes_eq hver] at hlen ⊢
  have hassoc : ∀ a b c d : Bytes, a ++ (b ++ (c ++ d)) = (a ++ (b ++ c)) ++ d := by
    intro a b c d
    simp only [List.append_assoc]
  rw [hassoc] at hlen ⊢
  have hfield := field_ofBytes hfit hlen
  simpa using hfield

/-- The part of page 0 before the runs. -/
def beforeRuns (q : Pager) : Bytes :=
  leBytes 4 q.header.magic.toNat ++ (leBytes 2 q.header.version.toNat ++ ([0, 0] ++
    (leBytes 4 q.header.pageCount.toNat ++ q.allocatorBytes)))

theorem length_beforeRuns (q : Pager) : q.beforeRuns.length = 32 := by
  simp [beforeRuns, length_allocatorBytes]

theorem headerBytes_runs (hver : q.header.version = version) :
    q.headerBytes = q.beforeRuns ++ (leBytes 4 q.persistedRuns.length ++
      runsBytes q.persistedRuns) := by
  rw [headerBytes_eq hver, beforeRuns]
  simp only [List.append_assoc]

theorem field_runCount (hver : q.header.version = version) :
    (RawPage.ofBytes q.headerBytes).field kFreeRunsOffset 4 = q.persistedRuns.length := by
  have hlen := (length_headerBytes_le hver).2
  have hfit : q.persistedRuns.length < 256 ^ 4 := by
    have hruns := q.length_persistedRuns
    have hmax : kMaxPersistedRuns = 507 := rfl
    norm_num
    omega
  rw [headerBytes_runs hver] at hlen ⊢
  have hfield := field_ofBytes hfit hlen
  rwa [length_beforeRuns] at hfield

/-- One run of the snapshot is read back. -/
theorem field_run (hver : q.header.version = version) {before after : List FreeRun} {r : FreeRun}
    (hsplit : q.persistedRuns = before ++ r :: after) :
    (RawPage.ofBytes q.headerBytes).field (kFreeRunsOffset + 4 + before.length * 8) 4 =
        r.slabClass.toNat ∧
      (RawPage.ofBytes q.headerBytes).field (kFreeRunsOffset + 4 + before.length * 8 + 4) 4 =
        r.start.toNat := by
  have hlen := (length_headerBytes_le hver).2
  have hclass : r.slabClass.toNat < 256 ^ 4 := r.slabClass.toNat_lt
  have hstart : r.start.toNat < 256 ^ 4 := r.start.toNat_lt
  have hruns : runsBytes q.persistedRuns = runsBytes before ++ (leBytes 4 r.slabClass.toNat ++
      (leBytes 4 r.start.toNat ++ runsBytes after)) := by
    rw [hsplit]
    simp [runsBytes, runBytes]
  rw [headerBytes_runs hver, hruns] at hlen ⊢
  have hoffset : kFreeRunsOffset = 32 := rfl
  have hpre : (q.beforeRuns ++ (leBytes 4 q.persistedRuns.length ++ runsBytes before)).length =
      kFreeRunsOffset + 4 + before.length * 8 := by
    rw [List.length_append, List.length_append, length_beforeRuns, length_leBytes, length_runsBytes]
    omega
  constructor
  · have hassoc : q.beforeRuns ++ (leBytes 4 q.persistedRuns.length ++ (runsBytes before ++
        (leBytes 4 r.slabClass.toNat ++ (leBytes 4 r.start.toNat ++ runsBytes after)))) =
        (q.beforeRuns ++ (leBytes 4 q.persistedRuns.length ++ runsBytes before)) ++
          (leBytes 4 r.slabClass.toNat ++ (leBytes 4 r.start.toNat ++ runsBytes after)) := by
      simp only [List.append_assoc]
    rw [hassoc] at hlen ⊢
    rw [← hpre]
    exact field_ofBytes hclass hlen
  · have hassoc : q.beforeRuns ++ (leBytes 4 q.persistedRuns.length ++ (runsBytes before ++
        (leBytes 4 r.slabClass.toNat ++ (leBytes 4 r.start.toNat ++ runsBytes after)))) =
        ((q.beforeRuns ++ (leBytes 4 q.persistedRuns.length ++ runsBytes before)) ++
          leBytes 4 r.slabClass.toNat) ++ (leBytes 4 r.start.toNat ++ runsBytes after) := by
      simp only [List.append_assoc]
    rw [hassoc] at hlen ⊢
    have hfield := field_ofBytes hstart hlen
    rwa [List.length_append, hpre, length_leBytes] at hfield

/-- The snapshot of the free runs is read back. -/
theorem snapshotRuns_headerBytes (hver : q.header.version = version) :
    snapshotRuns (RawPage.ofBytes q.headerBytes) = q.persistedRuns := by
  unfold snapshotRuns
  rw [field_runCount hver]
  dsimp only
  rw [if_pos q.length_persistedRuns]
  apply List.ext_getElem
  · rw [List.length_map, List.length_range]
  · intro i hi hi'
    have hsplit : q.persistedRuns = q.persistedRuns.take i ++ q.persistedRuns[i] ::
        q.persistedRuns.drop (i + 1) := by
      rw [List.getElem_cons_drop, List.take_append_drop]
    have htake : (q.persistedRuns.take i).length = i := by
      rw [List.length_take]
      omega
    obtain ⟨hclass, hstart⟩ := field_run hver hsplit
    rw [htake] at hclass hstart
    rw [List.getElem_map, List.getElem_range, hclass, hstart, UInt32.ofNat_toNat,
      UInt32.ofNat_toNat]

end Fields

/-! ## Opening -/

theorem run_flushHeader {p : Pager} (hpos : 0 < p.header.pageCount.toNat) :
    flushHeader.run p = .ok () p.writeHeader := by
  have hin : ¬ p.header.pageCount ≤ 0 := by
    rw [UInt32.le_iff_toNat_le, UInt32.toNat_zero]
    omega
  simp only [flushHeader, writeRaw, EStateM.run_bind, EStateM.run_get, hin, if_false,
    EStateM.run_modify]
  rfl

theorem file_zero_writeHeader {p : Pager} (hpos : 0 < p.file.length) :
    p.writeHeader.file[0]? = some (RawPage.ofBytes p.headerBytes) := by
  show (Image.write p.file 0 _)[0]? = _
  rw [getElem?_write hpos, if_pos rfl]

/-- Flushing the header changes page 0 only. -/
theorem readPage_writeHeader {p : Pager} (hpos : 0 < p.file.length) (id : PageId) :
    p.writeHeader.readPage id = p.readPage id := by
  by_cases hid : id = 0
  · rw [hid]
    simp [readPage]
  · have hne : ¬ 0 = id.toNat := fun e => hid (UInt32.toNat_inj.1 e.symm)
    unfold readPage readRaw writeHeader
    dsimp only
    rw [getElem?_write hpos, if_neg hne]

theorem Owns.writeHeader {p : Pager} {live : List PageId} (hp : p.Owns live) :
    p.writeHeader.Owns live := by
  have hpos : 0 < p.file.length := by
    have h₁ := hp.backed.pos
    have h₂ := hp.backed.onFile
    omega
  have hlen : p.writeHeader.file.length = p.file.length := length_write hpos
  refine ⟨⟨hp.backed.pos, ?_, ?_⟩, hp.nodup, hp.range, hp.bitmap⟩
  · rw [hlen]
    exact hp.backed.onFile
  · rw [hlen]
    exact hp.backed.onDisk

/-- The pages listed as free on the header page of `q`. -/
def listed (q : Pager) : List PageId := BuddyPageAllocator.runsPages q.persistedRuns

theorem listed_sublist (q : Pager) : q.listed.Sublist q.allocator.pool := by
  rw [← BuddyPageAllocator.runsPages_saveFreeRuns]
  exact List.Sublist.flatMap (List.take_sublist _ _) _

/-- The pager of a file whose page 0 is the header page of `q`. -/
def reopened (q : Pager) (file : Image) (capacity : Nat) (h : capacity < 2 ^ 32) : Pager :=
  ⟨file, ⟨0, version, q.header.pageCount, invalidPage⟩,
    (BuddyPageAllocator.new.ensureBitmapSize q.header.pageCount.toNat).loadFreeRuns q.persistedRuns
      q.header.pageCount.toNat, capacity, h⟩

/-- Opening a file with a header page. The magic number in memory is not set. -/
theorem run_openFile_header {q : Pager} {file : Image} {capacity : Nat} (h : capacity < 2 ^ 32)
    (hpage : file[0]? = some (RawPage.ofBytes q.headerBytes)) (hmagic : q.header.magic = magic)
    (hver : q.header.version = version) :
    openFile.run (unloaded file capacity h) = .ok () (q.reopened file capacity h) := by
  have hload : loadHeader.run (unloaded file capacity h) =
      .ok true (q.reopened file capacity h) := by
    rw [loadHeader]
    rw [EStateM.run_bind, EStateM.run_get]
    have hfile : (unloaded file capacity h).file[0]? = some (RawPage.ofBytes q.headerBytes) := hpage
    dsimp only
    rw [hfile]
    dsimp only
    rw [field_magic hver, hmagic, if_neg (by simp), field_version hver, field_pageCount hver,
      if_neg (by decide), if_pos rfl, snapshotRuns_headerBytes hver, UInt32.ofNat_toNat]
    rfl
  rw [openFile, EStateM.run_bind, hload]
  rfl

/-- The pager of a file that is initialised again. -/
def reset (file : Image) (capacity : Nat) (h : capacity < 2 ^ 32) : Pager :=
  let p : Pager := ⟨file, newHeader, BuddyPageAllocator.new, capacity, h⟩
  p.writeHeader

/-- Opening a file whose page 0 has lost the magic number. -/
theorem run_openFile_foreign {page : RawPage} {file : Image} {capacity : Nat}
    (h : capacity < 2 ^ 32) (hpage : file[0]? = some page) (hmagic : page.field 0 4 ≠ magic.toNat) :
    openFile.run (unloaded file capacity h) = .ok () (reset file capacity h) := by
  have hload : loadHeader.run (unloaded file capacity h) =
      .ok false (unloaded file capacity h) := by
    rw [loadHeader]
    rw [EStateM.run_bind, EStateM.run_get]
    have hfile : (unloaded file capacity h).file[0]? = some page := hpage
    dsimp only
    rw [hfile]
    dsimp only
    rw [if_pos hmagic]
    rfl
  rw [openFile, EStateM.run_bind, hload]
  rfl

theorem readPage_reopened {p q : Pager} (hcount : q.header.pageCount = p.header.pageCount)
    (capacity : Nat) (h : capacity < 2 ^ 32) (id : PageId) :
    (q.reopened p.file capacity h).readPage id = p.readPage id := by
  unfold readPage readRaw reopened
  dsimp only
  rw [hcount]

theorem pool_reopened (q : Pager) (file : Image) (capacity : Nat) (h : capacity < 2 ^ 32) :
    (q.reopened file capacity h).allocator.pool.Subperm q.listed :=
  (BuddyPageAllocator.pool_loadFreeRuns _ _ _).1

/-- Pages in use stay in use when the header page does not list them. -/
theorem Owns.reopened {p q : Pager} {live : List PageId} (hp : p.Owns live)
    (hcount : q.header.pageCount = p.header.pageCount) (hnodup : (q.listed ++ live).Nodup)
    (hrange : ∀ x ∈ q.listed, x ≠ 0 ∧ x.toNat < p.header.pageCount.toNat) {capacity : Nat}
    (h : capacity < 2 ^ 32) (hdisk : p.file.length ≤ capacity) :
    (q.reopened p.file capacity h).Owns live := by
  have hpool := pool_reopened q p.file capacity h
  have hsub : ((q.reopened p.file capacity h).allocator.pool ++ live).Subperm (q.listed ++ live) :=
    (List.subperm_append_right _).2 hpool
  have hall : ∀ x ∈ (q.reopened p.file capacity h).allocator.pool ++ live,
      x ≠ 0 ∧ x.toNat < p.header.pageCount.toNat := by
    intro x hx
    rcases List.mem_append.1 (hsub.subset hx) with hx | hx
    · exact hrange x hx
    · exact hp.range x (List.mem_append_right _ hx)
  have hheader : (q.reopened p.file capacity h).header.pageCount = p.header.pageCount := hcount
  refine ⟨⟨?_, ?_, hdisk⟩, ?_, ?_, ?_⟩
  · rw [hheader]
    exact hp.backed.pos
  · rw [hheader]
    exact hp.backed.onFile
  · obtain ⟨l, hl, hs⟩ := hsub
    exact hl.nodup_iff.1 (hs.nodup hnodup)
  · intro x hx
    rw [hheader]
    exact hall x hx
  · intro x hx
    have hbits := (BuddyPageAllocator.pool_loadFreeRuns
      (BuddyPageAllocator.new.ensureBitmapSize q.header.pageCount.toNat) q.persistedRuns
      q.header.pageCount.toNat).2
    rw [hcount] at hbits
    have hlt := (hall x hx).2
    show x.toNat < (BuddyPageAllocator.loadFreeRuns _ _ _).allocated.length
    rw [hcount]
    omega

/-- A file that has been initialised again has no pages in use. -/
theorem owns_reset {file : Image} {capacity : Nat} (h : capacity < 2 ^ 32) (hpos : 0 < file.length)
    (hdisk : file.length ≤ capacity) : (reset file capacity h).Owns [] := by
  have hlen : (reset file capacity h).file.length = file.length := length_write hpos
  refine ⟨⟨Nat.one_pos, ?_, ?_⟩, ?_, ?_, ?_⟩
  · rw [hlen]
    exact hpos
  · rw [hlen]
    exact hdisk
  · exact List.nodup_nil
  · intro x hx
    exact absurd hx List.not_mem_nil
  · intro x hx
    exact absurd hx List.not_mem_nil

end Pager

end OpenDB
