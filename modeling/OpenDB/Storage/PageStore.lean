import OpenDB.Storage.HeaderPage

/-!
# The pager as a page store

What a user of a page file may rely on: a page in use reads what was last written to it. `PageStore` is
what the user knows: the pages in use, what was last written to each, and whether the process has made
the file. `StoreRun` runs the pager beside it, over any number of calls and of processes, each of which
closes the file or crashes.

The contents of a file live through one restart. The process that has made the file writes its header
page whenever the file grows, at a time when no page is free; so a process that comes after it, be it
after a crash, finds all pages, and takes none of them for free. But that process does not have the
magic number in memory; the header page that it writes is not one, and the process after it starts with
an empty file (`PageStore.restart`).
-/

set_option autoImplicit false

namespace OpenDB

open OpenDB.Library

/-- What a user of the file knows. -/
structure PageStore where
  live : List PageId
  contents : PageId → Option Bytes
  made : Bool

namespace PageStore

def empty : PageStore := ⟨[], fun _ => none, true⟩

/-- A page that has just been allocated may read anything. -/
def allocate (s : PageStore) (x : PageId) : PageStore :=
  { s with live := x :: s.live, contents := Function.update s.contents x none }

def write (s : PageStore) (x : PageId) (data : Bytes) : PageStore :=
  { s with contents := Function.update s.contents x (some data) }

def free (s : PageStore) (x : PageId) : PageStore := { s with live := s.live.erase x }

/-- The next process: it finds all pages, or none. -/
def restart (s : PageStore) : PageStore := if s.made then { s with made := false } else empty

@[simp] theorem contents_allocate (s : PageStore) (x y : PageId) :
    (s.allocate x).contents y = if y = x then none else s.contents y :=
  Function.update_apply _ _ _ _

@[simp] theorem contents_write (s : PageStore) (x y : PageId) (data : Bytes) :
    (s.write x data).contents y = if y = x then some data else s.contents y :=
  Function.update_apply _ _ _ _

end PageStore

namespace Pager

/-- The pages in use are the pager's, and they read what was last written. The magic number is in memory
in the process that has made the file, and page 0 was then written with no page free. -/
structure Stores (p : Pager) (s : PageStore) (capacity : Nat) : Prop where
  owns : p.Owns s.live
  reads : ∀ x ∈ s.live, ∀ data, s.contents x = some data → p.readPage x = some data
  version : p.header.version = Pager.version
  capacity : p.capacity = capacity
  made : s.made = true → p.header.magic = magic ∧ p.FlushedEmpty
  found : s.made = false → p.header.magic ≠ magic

/-- Nothing that is known of a page that a call has left alone changes. -/
theorem Stores.frame {p p' : Pager} {s s' : PageStore} {capacity : Nat} {touched : List PageId}
    (h : p.Stores s capacity) (hframe : p.Frame p' touched) (howns : p'.Owns s'.live)
    (hmade : s'.made = s.made)
    (hreads : ∀ x ∈ s'.live, ∀ data, s'.contents x = some data →
      (x ∉ touched ∧ x ∈ s.live ∧ s.contents x = some data) ∨ p'.readPage x = some data) :
    p'.Stores s' capacity := by
  refine ⟨howns, fun x hx data hdata => ?_, hframe.version.trans h.version,
    hframe.capacity.trans h.capacity, fun hs => ?_, fun hs => ?_⟩
  · rcases hreads x hx data hdata with ⟨hnot, hlive, hcontents⟩ | hread
    · rw [hframe.pages x hnot]
      exact h.reads x hlive data hcontents
    · exact hread
  · rw [hmade] at hs
    exact ⟨hframe.magic.trans (h.made hs).1, hframe.flushedEmpty (h.made hs).2⟩
  · rw [hmade] at hs
    rw [hframe.magic]
    exact h.found hs

section

variable {p p' : Pager} {s : PageStore} {capacity : Nat} {x : PageId} {data : Bytes}

theorem Stores.range (h : p.Stores s capacity) (hlive : x ∈ s.live) :
    x ≠ 0 ∧ x.toNat < p.header.pageCount.toNat :=
  h.owns.range x (List.mem_append_right _ hlive)

theorem Stores.allocate (h : p.Stores s capacity) (hcall : allocatePage.run p = .ok x p') :
    p'.Stores (s.allocate x) capacity ∧ x ∉ s.live := by
  obtain ⟨howns, hframe, -⟩ := allocatePage_ok h.owns hcall
  have hnew : x ∉ s.live := (List.nodup_cons.1 (List.nodup_append.1 howns.nodup).2.1).1
  refine ⟨h.frame hframe howns rfl fun y hy d hd => Or.inl ?_, hnew⟩
  rw [PageStore.contents_allocate] at hd
  split_ifs at hd with hne
  exact ⟨by simpa using hne, List.mem_of_ne_of_mem hne hy, hd⟩

/-- A write to a page in use. -/
theorem Stores.withPage (h : p.Stores s capacity) (hlive : x ∈ s.live)
    (hlen : data.length = dataPagePayloadSize) :
    (p.withPage x data).Stores (s.write x data) capacity := by
  obtain ⟨hne, hlt⟩ := h.range hlive
  have howns : (p.withPage x data).Owns (s.write x data).live := h.owns.withPage hlt
  refine h.frame (frame_withPage h.owns.backed hne hlt) howns rfl fun y hy d hd => ?_
  rw [PageStore.contents_write] at hd
  split_ifs at hd with hyx
  · cases hd
    subst hyx
    exact Or.inr (readPage_withPage_self hlen hne hlt)
  · exact Or.inl ⟨by simpa using hyx, hy, hd⟩

/-- What `writePage` returns on a page in use. -/
theorem Stores.run_writePage (h : p.Stores s capacity) (hlive : x ∈ s.live) (data : Bytes) :
    (data.length = dataPagePayloadSize ∧
      (writePage (some x) data).run p = .ok x (p.withPage x data)) ∨
    (data.length ≠ dataPagePayloadSize ∧ ∃ e, (writePage (some x) data).run p = .error e p) := by
  by_cases hlen : data.length = dataPagePayloadSize
  · obtain ⟨hne, hlt⟩ := h.range hlive
    exact Or.inl ⟨hlen, Pager.run_writePage hlen hne hlt⟩
  · refine Or.inr ⟨hlen, .runtimeError
      (ascii "Pager::writePage: data size must equal DATA_PAGE_PAYLOAD_SIZE"), ?_⟩
    unfold writePage
    rw [if_pos hlen]
    rfl

theorem Stores.free (h : p.Stores s capacity) (hlive : x ∈ s.live) :
    ∃ p', (freePage x).run p = .ok () p' ∧ p'.Stores (s.free x) capacity := by
  obtain ⟨p', hrun, howns, hframe, -⟩ := freePage_ok (h.owns.perm (List.perm_cons_erase hlive).symm)
  refine ⟨p', hrun, h.frame hframe howns rfl fun y hy d hd => Or.inl ⟨List.not_mem_nil, ?_, hd⟩⟩
  exact List.mem_of_mem_erase hy

theorem Stores.length_file_pos (h : p.Stores s capacity) : 0 < p.file.length :=
  h.owns.backed.pos.trans_le h.owns.backed.onFile

/-! ## Restarts -/

theorem Stores.run_close (h : p.Stores s capacity) :
    close.run p = .ok p.writeHeader.file p.writeHeader := by
  rw [close, EStateM.run_bind, run_flushHeader h.owns.backed.pos]
  rfl

/-- The next process on a file whose page 0 is a header page that takes no page in use for free. -/
theorem Stores.reopened (h : p.Stores s capacity) (hcap : capacity < 2 ^ 32) {q : Pager}
    {file : Image} (hmade : s.made = true) (hread : ∀ x, ({ p with file := file } : Pager).readPage x =
      p.readPage x) (hlen : file.length = p.file.length)
    (hheader : q.header = p.header) (hlisted : q.listed.Sublist p.allocator.pool) :
    (q.reopened file capacity hcap).Stores s.restart capacity := by
  have hcount : q.header.pageCount = p.header.pageCount := congrArg PagerHeader.pageCount hheader
  have hrestart : s.restart = { s with made := false } := if_pos hmade
  have howns : ({ p with file := file } : Pager).Owns s.live := by
    refine ⟨⟨h.owns.backed.pos, ?_, ?_⟩, h.owns.nodup, h.owns.range, h.owns.bitmap⟩
    · rw [hlen]
      exact h.owns.backed.onFile
    · rw [hlen]
      exact h.owns.backed.onDisk
  rw [hrestart]
  refine ⟨?_, fun x hx data hdata => ?_, rfl, rfl, fun hs => absurd hs Bool.false_ne_true,
    fun _ => by show (0 : UInt32) ≠ magic; decide⟩
  · apply howns.reopened hcount
    · exact h.owns.nodup.sublist (hlisted.append_right _)
    · exact fun x hx => h.owns.range x (List.mem_append_left _ (hlisted.subset hx))
    · rw [← h.capacity]
      exact howns.backed.onDisk
  · have hreopened := readPage_reopened (p := { p with file := file }) hcount capacity hcap x
    rw [hreopened, hread]
    exact h.reads x hx data hdata

/-- The next process on a file whose page 0 is not a header page. -/
theorem Stores.reset (h : p.Stores s capacity) (hcap : capacity < 2 ^ 32) (hmade : s.made = false) :
    (Pager.reset p.writeHeader.file capacity hcap).Stores s.restart capacity := by
  have hrestart : s.restart = .empty := if_neg (by rw [hmade]; exact Bool.false_ne_true)
  have hlen : p.writeHeader.file.length = p.file.length := length_write h.length_file_pos
  have hpos : 0 < p.writeHeader.file.length := by
    rw [hlen]
    exact h.length_file_pos
  have hdisk : p.writeHeader.file.length ≤ capacity := by
    rw [hlen, ← h.capacity]
    exact h.owns.backed.onDisk
  rw [hrestart]
  refine ⟨owns_reset hcap hpos hdisk, fun x hx => absurd hx List.not_mem_nil, rfl, rfl,
    fun _ => ⟨rfl, ?_⟩, fun hs => absurd hs Bool.false_ne_true.symm⟩
  exact ⟨⟨p.writeHeader.file, newHeader, BuddyPageAllocator.new, capacity, hcap⟩,
    file_zero_writeHeader hpos, rfl, rfl⟩

theorem Stores.restart (h : p.Stores s capacity) (hcap : capacity < 2 ^ 32) :
    ∃ q, openFile.run (unloaded p.writeHeader.file capacity hcap) = .ok () q ∧
      q.Stores s.restart capacity := by
  have hpage := file_zero_writeHeader h.length_file_pos
  cases hmade : s.made with
  | true =>
    refine ⟨_, run_openFile_header hcap hpage (h.made hmade).1 h.version, ?_⟩
    exact h.reopened hcap hmade (readPage_writeHeader h.length_file_pos)
      (length_write h.length_file_pos) rfl p.listed_sublist
  | false =>
    have hfield : (RawPage.ofBytes p.headerBytes).field 0 4 ≠ magic.toNat := by
      rw [field_magic h.version]
      exact fun heq => h.found hmade (UInt32.toNat_inj.1 heq)
    exact ⟨_, run_openFile_foreign hcap hpage hfield, h.reset hcap hmade⟩

end

end Pager

end OpenDB
