import OpenDB.Storage.PageAccounts

/-!
# Allocations out of the free pool

What single-page allocations return from any allocator state whatsoever, in terms of the pool: first
the pages of the pool, as often as they are in it, and then the pages that the file is extended by
(`AllocRun.pages`); every page of the pool is returned by some run (`exists_drain`). So the pool
alone decides whether two allocations can return the same page.

Freeing a page that is free already puts it into the pool once more, where the contract of
`freePages` promises that nothing happens (`freePages_of_free`).
-/

set_option autoImplicit false

namespace OpenDB

namespace Pager

/-! ## Runs of allocations -/

/-- The disk has no more pages than there are page ids left. -/
def IdsLast (p : Pager) : Prop :=
  p.file.length < p.capacity → p.header.pageCount.toNat + 1 < 2 ^ 32

theorem Backed.idsLast {p : Pager} (hp : p.Backed) : p.IdsLast := fun hroom => hp.ids hroom

/-- Single-page allocations one after the other, with the pages they return. Calls that throw return
none. The file is extended only while page ids last. -/
inductive AllocRun : Pager → List PageId → Pager → Prop where
  | nil (p : Pager) : AllocRun p [] p
  | returns {p q r : Pager} {x : PageId} {pages : List PageId}
      (hids : p.allocator.pool = [] → p.IdsLast) (hcall : allocatePage.run p = .ok x q)
      (hrest : AllocRun q pages r) : AllocRun p (x :: pages) r
  | throws {p q r : Pager} {e : Fault} {pages : List PageId}
      (hids : p.allocator.pool = [] → p.IdsLast) (hcall : allocatePage.run p = .error e q)
      (hrest : AllocRun q pages r) : AllocRun p pages r

/-- Everything an allocation can do, whatever the state of the allocator. -/
theorem allocatePage_cases_of_ids {p : Pager} (hids : p.allocator.pool = [] → p.IdsLast) :
    (∃ x a, p.allocator.allocatePages 1 = some (x, a) ∧
      allocatePage.run p = .ok x { p with allocator := a }) ∨
    (p.allocator.pool = [] ∧ p.file.length < p.capacity ∧
      allocatePage.run p = .ok p.header.pageCount p.extended) ∨
    (p.allocator.pool = [] ∧ ¬ p.file.length < p.capacity ∧
      allocatePage.run p = .error extendFailed p) := by
  cases ha : p.allocator.allocatePages 1 with
  | some r =>
    obtain ⟨x, a⟩ := r
    exact Or.inl ⟨x, a, rfl, by simp [allocatePage, ha]⟩
  | none =>
    have hpool := (BuddyPageAllocator.allocatePages_eq_none_iff _).1 ha
    by_cases hroom : p.file.length < p.capacity
    · refine Or.inr (Or.inl ⟨hpool, hroom, ?_⟩)
      rw [run_allocatePage_extend hpool, run_extendFile_one_of_ids (hids hpool hroom) hroom]
    · exact Or.inr (Or.inr ⟨hpool, hroom, run_allocatePage_full hpool hroom⟩)

theorem pagesFrom_zero (start : PageId) : pagesFrom start 0 = [] := rfl

theorem length_pagesFrom (start : PageId) (n : Nat) : (pagesFrom start n).length = n := by
  rw [pagesFrom, List.length_map, List.length_range]

theorem pagesFrom_add (start : PageId) (m n : Nat) :
    pagesFrom start (m + n) = pagesFrom start m ++ pagesFrom (start + UInt32.ofNat m) n := by
  unfold pagesFrom
  rw [List.range_add, List.map_append, List.map_map]
  congr 1
  apply List.map_congr_left
  intro i _
  rw [Function.comp_apply, UInt32.ofNat_add, UInt32.add_assoc]

/-- The page that a file is extended by, and the pages after it. -/
theorem pagesFrom_succ (start : PageId) (g : Nat) :
    pagesFrom start (g + 1) = start :: pagesFrom (start + 1) g := by
  have hone : pagesFrom start 1 = [start] := by simp [pagesFrom]
  rw [Nat.add_comm, pagesFrom_add, hone]
  rfl

/-- What a run of allocations has done to a pager. -/
structure Drawn (p : Pager) (pages : List PageId) (q : Pager) (g : Nat) : Prop where
  file : q.file.length = p.file.length + g
  pageCount : q.header.pageCount.toNat = p.header.pageCount.toNat + g
  capacity : q.capacity = p.capacity
  onDisk : 0 < g → q.file.length ≤ p.capacity
  pool : (pages ++ q.allocator.pool).Perm (p.allocator.pool ++ pagesFrom p.header.pageCount g)

/-- A run of allocations returns pages of the pool and the pages that the file is extended by. -/
theorem AllocRun.drawn {p q : Pager} {pages : List PageId} (h : AllocRun p pages q) :
    ∃ g, p.Drawn pages q g := by
  induction h with
  | nil p =>
    refine ⟨0, rfl, rfl, rfl, fun h => absurd h (lt_irrefl 0), ?_⟩
    rw [List.nil_append, pagesFrom_zero, List.append_nil]
  | @returns p q r x pages hids hcall hrest ih =>
    obtain ⟨g, hfile, hcount, hcap, hdisk, hpool⟩ := ih
    rcases allocatePage_cases_of_ids hids with ⟨y, a, ha, hrun⟩ | ⟨hnil, hroom, hrun⟩ | ⟨-, -, hrun⟩
    · rw [hrun] at hcall
      cases hcall
      refine ⟨g, hfile, hcount, hcap, hdisk, ?_⟩
      have hperm := BuddyPageAllocator.pool_allocatePages ha
      exact (hpool.cons x).trans (hperm.symm.append_right _)
    · rw [hrun] at hcall
      cases hcall
      have hgrown : p.extended.header.pageCount.toNat = p.header.pageCount.toNat + 1 := by
        show (p.header.pageCount + 1).toNat = _
        rw [UInt32.toNat_add, UInt32.toNat_one, Nat.mod_eq_of_lt (hids hnil hroom)]
      rw [length_extended] at hfile
      refine ⟨g + 1, by omega, by omega, hcap, fun _ => ?_, ?_⟩
      · change 0 < g → r.file.length ≤ p.capacity at hdisk
        omega
      rw [pool_extended, hnil, List.nil_append] at hpool
      rw [hnil, List.nil_append, pagesFrom_succ]
      exact hpool.cons _
    · rw [hrun] at hcall
      cases hcall
  | @throws p q r e pages hids hcall hrest ih =>
    rcases allocatePage_cases_of_ids hids with ⟨y, a, ha, hrun⟩ | ⟨hnil, hroom, hrun⟩ | ⟨-, -, hrun⟩
    · rw [hrun] at hcall
      cases hcall
    · rw [hrun] at hcall
      cases hcall
    · rw [hrun] at hcall
      cases hcall
      exact ih

/-- Some run of allocations returns the whole pool and leaves the file as it is. -/
theorem exists_drain (p : Pager) : ∃ pages q, AllocRun p pages q ∧ pages.Perm p.allocator.pool ∧
    q.allocator.pool = [] ∧ q.file = p.file ∧ q.header = p.header ∧ q.capacity = p.capacity := by
  induction hn : p.allocator.pool.length generalizing p with
  | zero => exact ⟨[], p, .nil p, by rw [List.length_eq_zero_iff.1 hn], List.length_eq_zero_iff.1 hn,
      rfl, rfl, rfl⟩
  | succ n ih =>
    have hpool : p.allocator.pool ≠ [] := by
      intro hnil
      rw [hnil] at hn
      cases hn
    cases ha : p.allocator.allocatePages 1 with
    | none => exact absurd ((BuddyPageAllocator.allocatePages_eq_none_iff _).1 ha) hpool
    | some s =>
      obtain ⟨x, a⟩ := s
      have hperm := BuddyPageAllocator.pool_allocatePages ha
      have hlen : a.pool.length = n := by
        have := hperm.length_eq
        rw [List.length_cons] at this
        omega
      obtain ⟨pages, q, hrun, hpages, hnil, hsame⟩ := ih { p with allocator := a } hlen
      refine ⟨x :: pages, q, .returns (fun h => absurd h hpool) ?_ hrun,
        (hpages.cons x).trans hperm.symm, hnil, hsame⟩
      simp [allocatePage, ha]

/-! ## Freeing a page twice -/

/-- What the contract of `freePages` promises for a page that is free already: the pool and its count
stay, and no later allocations return one page twice. -/
def FreeIsNoOp (p : Pager) (x : PageId) : Prop :=
  ∃ p', (freePages x 1).run p = .ok () p' ∧ p'.allocator.pool.Perm p.allocator.pool ∧
    p'.allocator.freePageCount = p.allocator.freePageCount ∧
    ∀ pages q, AllocRun p' pages q → pages.Nodup

/-- `freePages` of a run on file is the allocator's. -/
theorem run_freePages {p : Pager} {start : PageId} {n : Nat} (hstart : start ≠ 0) (hn : n ≠ 0)
    (hlt : start.toNat + n ≤ p.header.pageCount.toNat) :
    (freePages start n).run p =
      match p.allocator.freePages start n with
      | .ok allocator => .ok () { p with allocator := allocator }
      | .error e => .error e p := by
  have hvalid : ¬ (start = 0 ∨ n = 0 ∨ p.header.pageCount.toNat < start.toNat + n) := by
    rw [not_or, not_or]
    exact ⟨hstart, hn, by omega⟩
  show freePages start n p = _
  exact if_neg hvalid

/-- A page that is freed again is in the pool once more. -/
theorem pool_freePages_one {p p' : Pager} {x : PageId} (hx : x ≠ 0)
    (hlt : x.toNat < p.header.pageCount.toNat) (hrun : (freePages x 1).run p = .ok () p') :
    p'.allocator.pool.Perm (x :: p.allocator.pool) := by
  rw [run_freePages hx one_ne_zero hlt] at hrun
  cases ha : p.allocator.freePages x 1 with
  | ok a =>
    rw [ha] at hrun
    cases hrun
    exact BuddyPageAllocator.pool_freePages ha
  | error e =>
    rw [ha] at hrun
    cases hrun

theorem freePageCount_freePages_one {p p' : Pager} {x : PageId} (hx : x ≠ 0)
    (hlt : x.toNat < p.header.pageCount.toNat) (hrun : (freePages x 1).run p = .ok () p') :
    p'.allocator.freePageCount = p.allocator.freePageCount + 1 := by
  rw [BuddyPageAllocator.freePageCount_eq, BuddyPageAllocator.freePageCount_eq,
    (pool_freePages_one hx hlt hrun).length_eq, List.length_cons]

theorem not_freeIsNoOp {p : Pager} {x : PageId} (hx : x ≠ 0)
    (hlt : x.toNat < p.header.pageCount.toNat) : ¬ p.FreeIsNoOp x := by
  rintro ⟨p', hrun, -, hsame, -⟩
  have hcount := freePageCount_freePages_one hx hlt hrun
  omega

/-- A call for a page that the bitmap covers returns. -/
theorem exists_freePages_one {p : Pager} {x : PageId} (hx : x ≠ 0)
    (hlt : x.toNat < p.header.pageCount.toNat) (hbit : x.toNat < p.allocator.allocated.length) :
    ∃ p', (freePages x 1).run p = .ok () p' := by
  have hclass : BuddyPageAllocator.classFor 1 ≤ BuddyPageAllocator.maxClass := by
    rw [BuddyPageAllocator.classFor_one]
    exact Nat.zero_le _
  have hok := BuddyPageAllocator.freePages_eq_ok one_ne_zero hbit hclass
  exact ⟨_, (run_freePages hx one_ne_zero hlt).trans (by rw [hok])⟩

/-- A page of the pool that is freed is then handed out twice. -/
theorem exists_handed_out_twice {p p' : Pager} {x : PageId} (hx : x ≠ 0)
    (hlt : x.toNat < p.header.pageCount.toNat) (hfree : x ∈ p.allocator.pool)
    (hrun : (freePages x 1).run p = .ok () p') :
    ∃ pages q, AllocRun p' pages q ∧ 2 ≤ pages.count x := by
  obtain ⟨pages, q, hdrain, hpages, -⟩ := exists_drain p'
  refine ⟨pages, q, hdrain, ?_⟩
  rw [hpages.count_eq, (pool_freePages_one hx hlt hrun).count_eq, List.count_cons_self]
  exact Nat.succ_le_succ (List.count_pos_iff.2 hfree)

/-- Freeing a page that is free is never without effect, in whatever state: the call returns, as far
as the bitmap reaches, the page is counted once more, and later allocations return it twice. -/
theorem freePages_of_free {p : Pager} {x : PageId} (hx : x ≠ 0)
    (hlt : x.toNat < p.header.pageCount.toNat) (hfree : x ∈ p.allocator.pool) :
    ¬ p.FreeIsNoOp x ∧ (x.toNat < p.allocator.allocated.length →
      ∃ p', (freePages x 1).run p = .ok () p' ∧
        p'.allocator.freePageCount = p.allocator.freePageCount + 1 ∧
        ∃ pages q, AllocRun p' pages q ∧ 2 ≤ pages.count x) := by
  refine ⟨not_freeIsNoOp hx hlt, fun hbit => ?_⟩
  obtain ⟨p', hrun⟩ := exists_freePages_one hx hlt hbit
  exact ⟨p', hrun, freePageCount_freePages_one hx hlt hrun,
    exists_handed_out_twice hx hlt hfree hrun⟩

/-! ## A file with free runs -/

/-- The allocator after a page of the bitmap has been freed. -/
def freed (a : BuddyPageAllocator) (x : PageId) : BuddyPageAllocator :=
  ⟨BuddyPageAllocator.coalesce BuddyPageAllocator.maxClass
      (BuddyPageAllocator.pushRun a.freeBuddy 0 x) x 0,
    BuddyPageAllocator.markPages a.allocated x.toNat false 1⟩

/-- Pages in use are freed one after the other. -/
theorem PageRun.freeAll {capacity : Nat} {hcap : capacity < 2 ^ 32} (hpos : 0 < capacity)
    {live xs : List PageId} {p : Pager} (hrun : PageRun capacity hcap live p) (hnodup : xs.Nodup)
    (hlive : xs ⊆ live) :
    PageRun capacity hcap (live.diff xs) { p with allocator := xs.foldl freed p.allocator } := by
  induction xs generalizing live p with
  | nil => exact hrun
  | cons x xs ih =>
    obtain ⟨hx, hxs⟩ := List.nodup_cons.1 hnodup
    have howns := (hrun.kept hpos).owns
    have hmem : x ∈ p.allocator.pool ++ live :=
      List.mem_append_right _ (hlive List.mem_cons_self)
    have hin : ¬ (x = 0 ∨ p.header.pageCount ≤ x) := by
      rw [not_or, UInt32.le_iff_toNat_le, not_le]
      exact howns.range x hmem
    have hbit := howns.bitmap x hmem
    have hfree : p.allocator.freePages x 1 = .ok (freed p.allocator x) := by
      rw [BuddyPageAllocator.freePages, if_neg (by omega), BuddyPageAllocator.classFor_one,
        if_neg (by decide)]
      rfl
    have hcall : (Pager.freePage x).run p = .ok () { p with allocator := freed p.allocator x } := by
      simp [Pager.freePage, EStateM.run, hin, hfree]
    rw [List.diff_cons, List.foldl_cons]
    refine ih (hrun.freePage (hlive List.mem_cons_self) hcall) hxs fun y hy => ?_
    refine (List.mem_erase_of_ne ?_).2 (hlive (List.mem_cons_of_mem _ hy))
    rintro rfl
    exact hx hy

theorem sixteen_lt : 16 < 2 ^ 32 := by decide

/-- The file of 16 pages after some allocations. -/
def filledFile : Nat → Pager
  | 0 => new 16 sixteen_lt
  | n + 1 => (filledFile n).extended

/-- The pages that have been allocated. -/
def filledPages : Nat → List PageId
  | 0 => []
  | n + 1 => UInt32.ofNat (n + 1) :: filledPages n

theorem pageRun_filledFile {n : Nat} (hn : n ≤ 15) :
    PageRun 16 (by decide) (filledPages n) (filledFile n) ∧ (filledFile n).allocator.pool = [] ∧
      (filledFile n).file.length = n + 1 ∧ (filledFile n).header.pageCount = UInt32.ofNat (n + 1) ∧
      (filledFile n).capacity = 16 := by
  induction n with
  | zero => exact ⟨.new (run_openFile_nil _ _), rfl, rfl, rfl, rfl⟩
  | succ n ih =>
    obtain ⟨hrun, hpool, hlength, hcount, hcapacity⟩ := ih (by omega)
    have hroom : (filledFile n).file.length < (filledFile n).capacity := by omega
    have hcall : allocatePage.run (filledFile n) =
        .ok (filledFile n).header.pageCount (filledFile n).extended := by
      rw [run_allocatePage_extend hpool, run_extendFile_one (hrun.kept (by decide)).owns.backed hroom]
    have hnext := hrun.allocatePage hcall
    rw [hcount] at hnext
    refine ⟨hnext, ?_, ?_, ?_, hcapacity⟩
    · rw [filledFile, pool_extended, hpool]
    · rw [filledFile, length_extended, hlength]
    · show (filledFile n).header.pageCount + 1 = _
      rw [hcount, UInt32.ofNat_add (n + 1) 1]
      rfl

/-- Of the pages 1 to 11 these are free again. -/
def freedPages : List PageId := [2, 4, 5, 8, 9, 10, 11]

/-- A file of which a page, a run of two and a run of four are free: 1, 3, 6 and 7 are in use, and the
file ends behind page 11. -/
def runsFile : Pager :=
  { filledFile 11 with allocator := freedPages.foldl freed (filledFile 11).allocator }

theorem pageRun_runsFile : PageRun 16 (by decide) [7, 6, 3, 1] runsFile :=
  (pageRun_filledFile (show 11 ≤ 15 by decide)).1.freeAll (by decide)
    (show freedPages.Nodup by decide) (show freedPages ⊆ filledPages 11 by decide)

theorem runs_runsFile : runsFile.header.pageCount = 12 ∧ runsFile.allocator.freeBuddy 0 = [2] ∧
    runsFile.allocator.freeBuddy 1 = [4] ∧ runsFile.allocator.freeBuddy 2 = [8] ∧
    runsFile.allocator.freeRunCount = 3 :=
  ⟨(pageRun_filledFile (show 11 ≤ 15 by decide)).2.2.2.1, by decide +kernel, by decide +kernel,
    by decide +kernel, by decide +kernel⟩

/-- A new file whose one data page has been allocated and freed. -/
theorem exists_one_free : ∃ p : Pager, PageRun 16 (by decide) [] p ∧
    p.header.pageCount = 2 ∧ p.allocator.pool = [1] := by
  have hnew : PageRun 16 (by decide) [] (new 16 (by decide)) := .new (run_openFile_nil _ _)
  have hkept := hnew.kept (by decide)
  have hroom : (new 16 (by decide)).file.length < (new 16 (by decide)).capacity := by decide
  have halloc : allocatePage.run (new 16 (by decide)) = .ok 1 (new 16 (by decide)).extended := by
    rw [run_allocatePage_extend rfl, run_extendFile_one hkept.owns.backed hroom]
    rfl
  have hrun := hnew.allocatePage halloc
  obtain ⟨p, hfree, -, -, hpool, -⟩ := freePage_ok (hrun.kept (by decide)).owns
  have hcount : p.header = (new 16 (by decide)).extended.header := by
    change freePage 1 _ = _ at hfree
    unfold freePage at hfree
    split_ifs at hfree
    · cases hfree
      rfl
    · split at hfree
      · cases hfree
        rfl
      · cases hfree
  rw [pool_extended] at hpool
  refine ⟨p, ?_, by rw [hcount]; rfl, List.perm_singleton.1 hpool⟩
  exact hrun.freePage (List.mem_singleton_self 1) hfree

theorem freePages_of_free_one : ∃ p : Pager, PageRun 16 (by decide) [] p ∧
    ¬ p.FreeIsNoOp 1 ∧ ((1 : PageId).toNat < p.allocator.allocated.length →
      ∃ p', (freePages 1 1).run p = .ok () p' ∧
        p'.allocator.freePageCount = p.allocator.freePageCount + 1 ∧
        ∃ pages q, AllocRun p' pages q ∧ 2 ≤ pages.count 1) := by
  obtain ⟨p, hrun, hcount, hpool⟩ := exists_one_free
  exact ⟨p, hrun, freePages_of_free (by decide) (by rw [hcount]; decide)
    (by rw [hpool]; exact List.mem_singleton_self 1)⟩

/-- Page 1 of a new file is free, alone; freeing it again returns, and two later allocations hand it
out. -/
theorem freed_twice_handed_out_twice : ∃ p p' : Pager, PageRun 16 (by decide) [] p ∧
    (1 : PageId).toNat < p.header.pageCount.toNat ∧ 1 ∈ p.allocator.pool ∧ ¬ p.FreeIsNoOp 1 ∧
    (freePages 1 1).run p = .ok () p' ∧
    ∃ pages q, AllocRun p' pages q ∧ 2 ≤ pages.count 1 := by
  obtain ⟨p, hrun, hcount, hpool⟩ := exists_one_free
  have hlt : (1 : PageId).toNat < p.header.pageCount.toNat := by
    rw [hcount]
    decide
  have hfree : 1 ∈ p.allocator.pool := by
    rw [hpool]
    exact List.mem_singleton_self 1
  have hbit := (hrun.kept (by decide)).owns.bitmap 1 (List.mem_append_left _ hfree)
  obtain ⟨p', hcall⟩ := exists_freePages_one (by decide) hlt hbit
  exact ⟨p, p', hrun, hlt, hfree, not_freeIsNoOp (by decide) hlt, hcall,
    exists_handed_out_twice (by decide) hlt hfree hcall⟩

end Pager

end OpenDB
