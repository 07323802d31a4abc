import OpenDB.Storage.FreePool

/-!
# Snapshots of the free runs

`loadFreeRuns` on an arbitrary list of runs. Runs are taken one after the other; one that fails the
bounds checks, or of which a page on the file is free already, is skipped (`acceptedRuns`). What is
parked afterwards are the accepted runs, class by class (`freeBuddy_loadFreeRuns`).

A snapshot that a pager wrote is accepted as a whole, so closing and reopening a file restores the
free runs up to the cap of the header page (`reopen_restores_free_runs`). In an arbitrary snapshot an
accepted run may reach beyond the file: only its pages on the file are checked and marked, but it is
parked with its whole class, and the pages behind the end of the file are handed out like the others
(`allocations_safe_iff`).
-/

set_option autoImplicit false

namespace OpenDB

open OpenDB.Library

namespace BuddyPageAllocator

/-! ## Marking runs in the bitmap -/

/-- A page is free by its bit. -/
def isFree (a : BuddyPageAllocator) (i : Nat) : Bool := !(a.allocated.getD i true)

theorem getD_markPages {bits : List Bool} {start n : Nat} (v : Bool)
    (hfit : start + n ≤ bits.length) (i : Nat) :
    (markPages bits start v n).getD i true =
      if start ≤ i ∧ i < start + n then v else bits.getD i true := by
  induction n with
  | zero => rw [markPages, if_neg (by omega)]
  | succ n ih =>
    have hlen := Pager.length_markPages bits start v n
    have hlt : start + n < (markPages bits start v n).length := by omega
    rw [markPages, List.getD_eq_getElem?_getD, List.getElem?_set]
    by_cases hi : start + n = i
    · rw [if_pos hi, if_pos hlt, if_pos (by omega)]
      rfl
    · rw [if_neg hi, ← List.getD_eq_getElem?_getD, ih (by omega)]
      by_cases hin : start ≤ i ∧ i < start + n
      · rw [if_pos hin, if_pos (by omega)]
      · rw [if_neg hin, if_neg (by omega)]

theorem isFree_ensureBitmapSize (a : BuddyPageAllocator) (n i : Nat) :
    (a.ensureBitmapSize n).isFree i = a.isFree i := by
  simp only [isFree, ensureBitmapSize]
  split_ifs with hlen
  · rfl
  · rw [List.getD_eq_getElem?_getD, List.getD_eq_getElem?_getD]
    by_cases hi : i < a.allocated.length
    · rw [List.getElem?_append_left hi]
    · rw [List.getElem?_append_right (by omega), List.getElem?_replicate,
        List.getElem?_eq_none (by omega)]
      split_ifs <;> rfl

/-! ## The runs that are accepted -/

/-- The numbers of the pages of a run that lie on a file of `count` pages. -/
def onFile (count : Nat) (r : FreeRun) : List Nat :=
  List.range' r.start.toNat (min (2 ^ r.slabClass.toNat) (count - r.start.toNat))

/-- A run is skipped when it fails the bounds checks or one of its pages on the file is free
already. -/
def Skipped (count : Nat) (free : Nat → Bool) (r : FreeRun) : Prop :=
  maxClass < r.slabClass.toNat ∨ r.start = 0 ∨ count ≤ r.start.toNat ∨
    (onFile count r).any free = true

instance (count : Nat) (free : Nat → Bool) (r : FreeRun) : Decidable (Skipped count free r) :=
  inferInstanceAs (Decidable (_ ∨ _))

/-- The runs of a snapshot that are not skipped, in order; the pages of one that is accepted count as
free for those behind it. -/
def acceptedRuns (count : Nat) : (Nat → Bool) → List FreeRun → List FreeRun
  | _, [] => []
  | free, r :: runs =>
    if Skipped count free r then acceptedRuns count free runs
    else r :: acceptedRuns count (fun i => free i || decide (i ∈ onFile count r)) runs

theorem acceptedRuns_sublist (count : Nat) (free : Nat → Bool) (runs : List FreeRun) :
    (acceptedRuns count free runs).Sublist runs := by
  induction runs generalizing free with
  | nil => exact List.Sublist.refl _
  | cons r runs ih =>
    rw [acceptedRuns]
    split_ifs
    · exact (ih free).cons r
    · exact (ih _).cons_cons r

/-- An accepted run has passed the bounds checks. -/
theorem bounds_of_mem_acceptedRuns {count : Nat} {free : Nat → Bool} {runs : List FreeRun}
    {r : FreeRun} (h : r ∈ acceptedRuns count free runs) :
    r.slabClass.toNat ≤ maxClass ∧ r.start ≠ 0 ∧ r.start.toNat < count := by
  induction runs generalizing free with
  | nil => cases h
  | cons s runs ih =>
    rw [acceptedRuns] at h
    split_ifs at h with hskip
    · exact ih h
    · rcases List.mem_cons.1 h with rfl | hmem
      · rw [Skipped] at hskip
        refine ⟨by omega, fun h0 => hskip (Or.inr (Or.inl h0)), by omega⟩
      · exact ih hmem

/-- No page on the file is in two accepted runs, nor free before. -/
theorem nodup_acceptedRuns (count : Nat) (free : Nat → Bool) (runs : List FreeRun) :
    ((acceptedRuns count free runs).flatMap (onFile count)).Nodup ∧
      ∀ i ∈ (acceptedRuns count free runs).flatMap (onFile count), free i = false := by
  induction runs generalizing free with
  | nil => exact ⟨List.nodup_nil, fun i hi => absurd hi List.not_mem_nil⟩
  | cons r runs ih =>
    rw [acceptedRuns]
    split_ifs with hskip
    · exact ih free
    · obtain ⟨hnodup, hfree⟩ := ih fun i => free i || decide (i ∈ onFile count r)
      have hself : ∀ i ∈ onFile count r, free i = false := by
        intro i hi
        by_contra hne
        exact hskip (Or.inr (Or.inr (Or.inr (List.any_eq_true.2
          ⟨i, hi, Bool.eq_true_of_not_eq_false hne⟩))))
      rw [List.flatMap_cons]
      refine ⟨List.nodup_append.2 ⟨List.nodup_range' , hnodup, ?_⟩, ?_⟩
      · rintro i hi j hj rfl
        have := hfree i hj
        rw [decide_eq_true hi, Bool.or_true] at this
        cases this
      · intro i hi
        rcases List.mem_append.1 hi with hi | hi
        · exact hself i hi
        · exact (Bool.or_eq_false_iff.1 (hfree i hi)).1

/-- Runs apart from each other and from the free pages are all accepted. -/
theorem acceptedRuns_eq_self {count : Nat} {free : Nat → Bool} {runs : List FreeRun}
    (hbounds : ∀ r ∈ runs, r.slabClass.toNat ≤ maxClass ∧ r.start ≠ 0 ∧ r.start.toNat < count)
    (hnodup : (runs.flatMap (onFile count)).Nodup)
    (hfree : ∀ i ∈ runs.flatMap (onFile count), free i = false) :
    acceptedRuns count free runs = runs := by
  induction runs generalizing free with
  | nil => rfl
  | cons r runs ih =>
    rw [List.flatMap_cons] at hnodup hfree
    obtain ⟨-, hrest, hapart⟩ := List.nodup_append.1 hnodup
    obtain ⟨hclass, hstart, hlt⟩ := hbounds r List.mem_cons_self
    have htake : ¬ Skipped count free r := by
      rintro (h | h | h | h)
      · omega
      · exact hstart h
      · omega
      · obtain ⟨i, hi, htrue⟩ := List.any_eq_true.1 h
        rw [hfree i (List.mem_append_left _ hi)] at htrue
        cases htrue
    rw [acceptedRuns, if_neg htake, ih (fun s hs => hbounds s (List.mem_cons_of_mem _ hs)) hrest]
    intro i hi
    rw [hfree i (List.mem_append_right _ hi), Bool.false_or, decide_eq_false_iff_not]
    exact fun hmem => hapart i hmem i hi rfl

/-! ## Loading -/

/-- The overlap guard looks at the pages of the run on the file. -/
theorem any_onFile (count : Nat) (a : BuddyPageAllocator) (r : FreeRun) :
    ((List.range (min (2 ^ r.slabClass.toNat) (count - r.start.toNat))).any fun j =>
      !(a.allocated.getD (r.start.toNat + j) true)) = (onFile count r).any a.isFree := by
  rw [onFile, List.range'_eq_map_range, List.any_map]
  rfl

/-- One run of a snapshot, by whether it is skipped. -/
theorem loadRun_eq (count : Nat) (a : BuddyPageAllocator) (r : FreeRun) :
    loadRun count a r =
      if Skipped count a.isFree r then a
      else ⟨pushRun a.freeBuddy r.slabClass.toNat r.start,
        markPages a.allocated r.start.toNat false (min (2 ^ r.slabClass.toNat)
          (count - r.start.toNat))⟩ := by
  rw [loadRun]
  dsimp only
  by_cases hout : maxClass < r.slabClass.toNat ∨ r.start = 0 ∨ count ≤ r.start.toNat
  · have hskip : Skipped count a.isFree r := by
      rw [Skipped]
      tauto
    rw [if_pos hout, if_pos hskip]
  · have hlen : (if count < r.start.toNat + 2 ^ r.slabClass.toNat then count - r.start.toNat
        else 2 ^ r.slabClass.toNat) = min (2 ^ r.slabClass.toNat) (count - r.start.toNat) := by
      split_ifs <;> omega
    rw [if_neg hout, hlen, any_onFile]
    by_cases hany : (onFile count r).any a.isFree = true
    · have hskip : Skipped count a.isFree r := Or.inr (Or.inr (Or.inr hany))
      rw [if_pos hany, if_pos hskip]
    · have hskip : ¬ Skipped count a.isFree r := by
        rw [Skipped]
        tauto
      rw [if_neg hany, if_neg hskip]

/-- The pages of a run that has been taken are free, and the other bits stay. -/
theorem isFree_taken {count : Nat} {a : BuddyPageAllocator} {r : FreeRun}
    (hcount : count ≤ a.allocated.length) (hlt : r.start.toNat < count) (fb : Nat → List PageId) :
    (BuddyPageAllocator.mk fb (markPages a.allocated r.start.toNat false
      (min (2 ^ r.slabClass.toNat) (count - r.start.toNat)))).isFree =
      fun i => a.isFree i || decide (i ∈ onFile count r) := by
  funext i
  rw [isFree, getD_markPages false (by omega)]
  by_cases hi : i ∈ onFile count r
  · have hin := List.mem_range'_1.1 hi
    rw [if_pos hin, decide_eq_true hi, Bool.or_true]
    rfl
  · have hout := fun h => hi (List.mem_range'_1.2 h)
    rw [if_neg hout, decide_eq_false hi, Bool.or_false]
    rfl

/-- Loading parks the accepted runs behind what is parked already. -/
theorem foldl_loadRun {count : Nat} {runs : List FreeRun} {a : BuddyPageAllocator}
    (hcount : count ≤ a.allocated.length) :
    (∀ k, (runs.foldl (loadRun count) a).freeBuddy k = a.freeBuddy k ++
      ((acceptedRuns count a.isFree runs).filter fun r => r.slabClass.toNat = k).map
        FreeRun.start) ∧
    (runs.foldl (loadRun count) a).pool.Perm
      (runsPages (acceptedRuns count a.isFree runs) ++ a.pool) := by
  induction runs generalizing a with
  | nil =>
    refine ⟨fun k => (List.append_nil _).symm, ?_⟩
    rw [acceptedRuns, runsPages_nil, List.nil_append]
    exact List.Perm.refl _
  | cons r runs ih =>
    rw [List.foldl_cons, acceptedRuns, loadRun_eq]
    by_cases hskip : Skipped count a.isFree r
    · rw [if_pos hskip, if_pos hskip]
      exact ih hcount
    · have hclass : r.slabClass.toNat ≤ maxClass := by
        rw [Skipped] at hskip
        omega
      have hlt : r.start.toNat < count := by
        rw [Skipped] at hskip
        omega
      rw [if_neg hskip, if_neg hskip]
      obtain ⟨hbuddy, hpool⟩ := @ih ⟨pushRun a.freeBuddy r.slabClass.toNat r.start,
        markPages a.allocated r.start.toNat false (min (2 ^ r.slabClass.toNat)
          (count - r.start.toNat))⟩ (by rw [Pager.length_markPages]; exact hcount)
      rw [isFree_taken hcount hlt] at hbuddy hpool
      refine ⟨fun k => ?_, ?_⟩
      · rw [hbuddy k, List.filter_cons]
        by_cases hk : r.slabClass.toNat = k
        · subst hk
          simp [pushRun]
        · simp [pushRun, Function.update_of_ne (Ne.symm hk), hk]
      · have hpush := @poolOf_pushRun a.freeBuddy _ hclass r.start
        refine hpool.trans ((List.Perm.append_left _ hpush).trans ?_)
        rw [← List.append_assoc]
        exact List.perm_append_comm.append_right _

/-- The runs of a snapshot that `loadFreeRuns` parks. -/
def loadedRuns (a : BuddyPageAllocator) (runs : List FreeRun) (count : Nat) : List FreeRun :=
  acceptedRuns count a.isFree runs

theorem isFree_cleared (a : BuddyPageAllocator) (count : Nat) :
    ({ a.ensureBitmapSize count with freeBuddy := fun _ => [] } : BuddyPageAllocator).isFree =
      a.isFree := by
  funext i
  exact isFree_ensureBitmapSize a count i

/-- Each class holds its accepted runs in the order of the snapshot. -/
theorem freeBuddy_loadFreeRuns (a : BuddyPageAllocator) (runs : List FreeRun) (count k : Nat) :
    (a.loadFreeRuns runs count).freeBuddy k =
      ((a.loadedRuns runs count).filter fun r => r.slabClass.toNat = k).map FreeRun.start := by
  have hfold := (@foldl_loadRun count runs
    { a.ensureBitmapSize count with freeBuddy := fun _ => [] }
    (length_ensureBitmapSize a count)).1 k
  rwa [isFree_cleared, List.nil_append] at hfold

theorem pool_loadFreeRuns_perm (a : BuddyPageAllocator) (runs : List FreeRun) (count : Nat) :
    (a.loadFreeRuns runs count).pool.Perm (runsPages (a.loadedRuns runs count)) := by
  have hfold := (@foldl_loadRun count runs
    { a.ensureBitmapSize count with freeBuddy := fun _ => [] }
    (length_ensureBitmapSize a count)).2
  have hnone : (BuddyPageAllocator.mk (fun _ => []) (a.ensureBitmapSize count).allocated).pool =
      [] := by
    simp [pool, poolOf, classPages]
  rwa [isFree_cleared, hnone, List.append_nil] at hfold

/-! ## Runs within the file -/

/-- A run ends within a file of `count` pages. -/
def Within (count : Nat) (r : FreeRun) : Prop := r.start.toNat + 2 ^ r.slabClass.toNat ≤ count

instance (count : Nat) (r : FreeRun) : Decidable (Within count r) :=
  Nat.decLe _ _

theorem onFile_of_within {count : Nat} {r : FreeRun} (h : Within count r) :
    onFile count r = List.range' r.start.toNat (2 ^ r.slabClass.toNat) := by
  rw [Within] at h
  rw [onFile, min_eq_left (by omega)]

end BuddyPageAllocator

namespace Pager

open BuddyPageAllocator

/-- The numbers of consecutive pages, as long as page ids last. -/
theorem map_toNat_pagesFrom {start : PageId} {n : Nat} (h : start.toNat + n ≤ 2 ^ 32) :
    (pagesFrom start n).map UInt32.toNat = List.range' start.toNat n := by
  rw [pagesFrom, List.map_map, List.range'_eq_map_range]
  apply List.map_congr_left
  intro i hi
  rw [List.mem_range] at hi
  rw [Function.comp_apply, UInt32.toNat_add, UInt32.toNat_ofNat', Nat.mod_eq_of_lt (by omega : i < _),
    Nat.mod_eq_of_lt (by omega)]

/-- A run within the file has the pages that it says. -/
theorem map_toNat_runPages {count : PageId} {r : FreeRun} (h : Within count.toNat r) :
    (runPages r.slabClass.toNat r.start).map UInt32.toNat = onFile count.toNat r := by
  have hlt := count.toNat_lt
  rw [onFile_of_within h]
  rw [Within] at h
  exact map_toNat_pagesFrom (by omega)

/-- Pages that start on the file and do not end within it have the page behind the file among
them. -/
theorem mem_pagesFrom_of_lt {start count : PageId} {n : Nat} (hlt : start.toNat < count.toNat)
    (h : count.toNat < start.toNat + n) : count ∈ pagesFrom start n := by
  have hcount := count.toNat_lt
  refine List.mem_map.2 ⟨count.toNat - start.toNat, List.mem_range.2 (by omega), ?_⟩
  apply UInt32.toNat_inj.1
  rw [UInt32.toNat_add, UInt32.toNat_ofNat', Nat.mod_eq_of_lt (by omega : count.toNat - _ < _),
    Nat.mod_eq_of_lt (by omega)]
  omega

theorem mem_runPages_of_not_within {count : PageId} {r : FreeRun} (hlt : r.start.toNat < count.toNat)
    (h : ¬ Within count.toNat r) : count ∈ runPages r.slabClass.toNat r.start :=
  mem_pagesFrom_of_lt hlt (not_le.1 h)

/-- Accepted runs that end within the file have distinct pages there. -/
theorem nodup_runsPages {count : PageId} {free : Nat → Bool} {runs : List FreeRun}
    (h : ∀ r ∈ acceptedRuns count.toNat free runs, Within count.toNat r) :
    (runsPages (acceptedRuns count.toNat free runs)).Nodup := by
  apply List.Nodup.of_map UInt32.toNat
  have hmap : (runsPages (acceptedRuns count.toNat free runs)).map UInt32.toNat =
      (acceptedRuns count.toNat free runs).flatMap (onFile count.toNat) := by
    rw [runsPages, List.map_flatMap]
    exact List.flatMap_congr fun r hr => map_toNat_runPages (h r hr)
  rw [hmap]
  exact (nodup_acceptedRuns _ _ _).1

/-! ## Arbitrary snapshots -/

/-- The pager after `loadFreeRuns` with its page count. -/
def withSnapshot (p : Pager) (runs : List FreeRun) : Pager :=
  { p with allocator := p.allocator.loadFreeRuns runs p.header.pageCount.toNat }

/-- However many pages are allocated after the snapshot has been loaded: no page twice, not the
header page, and only pages that the snapshot covers on the file or that the file has been extended
by. -/
def AllocationsSafe (p : Pager) (runs : List FreeRun) : Prop :=
  ∀ pages q, AllocRun (p.withSnapshot runs) pages q → pages.Nodup ∧ ∀ x ∈ pages, x ≠ 0 ∧
    ((x.toNat < p.header.pageCount.toNat ∧ x ∈ runsPages runs) ∨
      x ∈ pagesFrom p.header.pageCount (q.file.length - p.file.length))

/-- A pool of distinct pages on the file makes a run of allocations return distinct pages: those of
the pool and those that the file is extended by. -/
theorem Drawn.safe {p q : Pager} {pages : List PageId} {g : Nat} (h : p.Drawn pages q g)
    (hnodup : p.allocator.pool.Nodup)
    (hlt : ∀ x ∈ p.allocator.pool, x.toNat < p.header.pageCount.toNat) :
    pages.Nodup ∧ ∀ x ∈ pages, x ∈ p.allocator.pool ∨
      (x ∈ pagesFrom p.header.pageCount g ∧ p.header.pageCount.toNat ≤ x.toNat) := by
  have hids : p.header.pageCount.toNat + g ≤ 2 ^ 32 := by
    have hq := q.header.pageCount.toNat_lt
    rw [h.pageCount] at hq
    exact hq.le
  have hnew := map_toNat_pagesFrom hids
  have hbehind : ∀ x ∈ pagesFrom p.header.pageCount g,
      p.header.pageCount.toNat ≤ x.toNat := by
    intro x hx
    have hmem : x.toNat ∈ List.range' p.header.pageCount.toNat g := by
      rw [← hnew]
      exact List.mem_map_of_mem hx
    exact (List.mem_range'_1.1 hmem).1
  have hall : (p.allocator.pool ++ pagesFrom p.header.pageCount g).Nodup := by
    refine List.nodup_append.2 ⟨hnodup, ?_, ?_⟩
    · apply List.Nodup.of_map UInt32.toNat
      rw [hnew]
      exact List.nodup_range'
    · rintro x hx y hy rfl
      have h₁ := hlt x hx
      have h₂ := hbehind x hy
      omega
  refine ⟨(List.nodup_append.1 (h.pool.nodup_iff.2 hall)).1, fun x hx => ?_⟩
  have hmem := h.pool.subset (List.mem_append_left _ hx)
  rcases List.mem_append.1 hmem with hx | hx
  · exact Or.inl hx
  · exact Or.inr ⟨hx, hbehind x hx⟩

/-- Allocations are not safe with a run that reaches beyond the file. -/
theorem not_allocationsSafe_of_overhang {p : Pager} {runs : List FreeRun} {r : FreeRun}
    (hr : r ∈ p.allocator.loadedRuns runs p.header.pageCount.toNat)
    (h : ¬ Within p.header.pageCount.toNat r) : ¬ p.AllocationsSafe runs := by
  intro hsafe
  obtain ⟨pages, q, hrun, hpages, -, hfile, -⟩ := exists_drain (p.withSnapshot runs)
  have hlt := (bounds_of_mem_acceptedRuns hr).2.2
  -- the page behind the file is in the pool, and the drain extends nothing
  have hmem : p.header.pageCount ∈ pages := by
    have hpool := pool_loadFreeRuns_perm p.allocator runs p.header.pageCount.toNat
    exact (hpages.trans hpool).mem_iff.2
      (List.mem_flatMap.2 ⟨r, hr, mem_runPages_of_not_within hlt h⟩)
  have hsame : q.file.length - p.file.length = 0 := by
    rw [hfile]
    exact Nat.sub_self _
  rcases ((hsafe pages q hrun).2 _ hmem).2 with ⟨hbad, -⟩ | hnew
  · exact absurd hbad (lt_irrefl _)
  · rw [hsame] at hnew
    exact absurd hnew List.not_mem_nil

/-- Allocations are not safe in a file that has not even a header page and can grow. -/
theorem not_allocationsSafe_of_no_page {p : Pager} (runs : List FreeRun)
    (hcount : p.header.pageCount = 0) (hroom : p.file.length < p.capacity) :
    ¬ p.AllocationsSafe runs := by
  intro hsafe
  have hruns : p.allocator.loadedRuns runs p.header.pageCount.toNat = [] := by
    apply List.eq_nil_iff_forall_not_mem.2
    intro r hr
    have hlt := (bounds_of_mem_acceptedRuns hr).2.2
    rw [hcount] at hlt
    exact absurd hlt (Nat.not_lt_zero _)
  have hpool : (p.withSnapshot runs).allocator.pool = [] := by
    have hperm := pool_loadFreeRuns_perm p.allocator runs p.header.pageCount.toNat
    rw [hruns] at hperm
    exact hperm.eq_nil
  have hids : (p.withSnapshot runs).header.pageCount.toNat + 1 < 2 ^ 32 := by
    show p.header.pageCount.toNat + 1 < 2 ^ 32
    rw [hcount]
    decide
  have hcall : allocatePage.run (p.withSnapshot runs) =
      .ok p.header.pageCount (p.withSnapshot runs).extended := by
    rw [run_allocatePage_extend hpool, run_extendFile_one_of_ids hids hroom]
    rfl
  have hrun := AllocRun.returns (fun _ _ => hids) hcall (.nil _)
  exact ((hsafe _ _ hrun).2 _ List.mem_cons_self).1 hcount

/-- After an arbitrary snapshot allocations are safe exactly when every run that is accepted ends
within the file, and the file has its header page or cannot grow. -/
theorem allocations_safe_iff (p : Pager) (runs : List FreeRun) :
    p.AllocationsSafe runs ↔
      (p.header.pageCount ≠ 0 ∨ ¬ p.file.length < p.capacity) ∧
      ∀ r ∈ p.allocator.loadedRuns runs p.header.pageCount.toNat,
        Within p.header.pageCount.toNat r := by
  constructor
  · intro hsafe
    refine ⟨?_, fun r hr => ?_⟩
    · by_contra hbad
      rw [not_or, not_not, not_not] at hbad
      exact not_allocationsSafe_of_no_page runs hbad.1 hbad.2 hsafe
    · by_contra hbad
      exact not_allocationsSafe_of_overhang hr hbad hsafe
  · rintro ⟨hgrow, hwithin⟩ pages q hrun
    obtain ⟨g, hdrawn⟩ := hrun.drawn
    have hpool := pool_loadFreeRuns_perm p.allocator runs p.header.pageCount.toNat
    have hrange : ∀ x ∈ (p.withSnapshot runs).allocator.pool,
        x ∈ runsPages runs ∧ 1 ≤ x.toNat ∧ x.toNat < p.header.pageCount.toNat := by
      intro x hx
      obtain ⟨r, hr, hxr⟩ := List.mem_flatMap.1 (hpool.subset hx)
      have hstart := (ne_zero_iff r.start).1 (bounds_of_mem_acceptedRuns hr).2.1
      have hnum : x.toNat ∈ onFile p.header.pageCount.toNat r := by
        rw [← map_toNat_runPages (hwithin r hr)]
        exact List.mem_map_of_mem hxr
      have hin := List.mem_range'_1.1 hnum
      refine ⟨List.mem_flatMap.2 ⟨r, (acceptedRuns_sublist _ _ _).subset hr, hxr⟩, ?_, ?_⟩ <;> omega
    obtain ⟨hnodup, hmem⟩ := hdrawn.safe (hpool.nodup_iff.2 (nodup_runsPages hwithin))
      fun x hx => (hrange x hx).2.2
    refine ⟨hnodup, fun x hx => ?_⟩
    rcases hmem x hx with hx | ⟨hnew, hle⟩
    · exact ⟨(ne_zero_iff x).2 (hrange x hx).2.1, Or.inl ⟨(hrange x hx).2.2, (hrange x hx).1⟩⟩
    · have hg : q.file.length - p.file.length = g := by
        rw [hdrawn.file]
        exact Nat.add_sub_cancel_left _ _
      refine ⟨?_, Or.inr (by rwa [hg])⟩
      -- page zero is handed out only by an extension of a file whose header counts no page
      rintro rfl
      have hcount : p.header.pageCount = 0 := UInt32.toNat_inj.1 (Nat.le_zero.1 hle)
      have hroom := hgrow.resolve_left (not_not.2 hcount)
      have hpos : 0 < g := by
        obtain ⟨i, hi, -⟩ := List.mem_map.1 hnew
        have := List.mem_range.1 hi
        omega
      have hdisk : q.file.length ≤ p.capacity := hdrawn.onDisk hpos
      have hfile : q.file.length = p.file.length + g := hdrawn.file
      omega

/-- A file of two pages, and a run of two pages from page 1: page 2 is not on the file. -/
theorem overhanging_run_not_safe :
    ¬ (new 16 (by decide)).extended.AllocationsSafe [⟨1, 1⟩] := by
  refine not_allocationsSafe_of_overhang (r := ⟨1, 1⟩) ?_ ?_
  · decide
  · decide

/-! ## Snapshots that a pager wrote -/

end Pager

namespace BuddyPageAllocator

/-- The part of a list of runs that is in a class. -/
def ofClass (runs : List FreeRun) (k : Nat) : List FreeRun :=
  runs.filter fun r => r.slabClass.toNat = k

theorem flatMap_range_single {α : Type} {L : Nat → List α} {k n : Nat} (hk : k < n)
    (h : ∀ j, j ≠ k → L j = []) : (List.range n).flatMap L = L k := by
  induction n with
  | zero => omega
  | succ n ih =>
    rw [List.range_succ, List.flatMap_append, List.flatMap_cons, List.flatMap_nil, List.append_nil]
    by_cases hkn : k = n
    · subst hkn
      have hnone : (List.range k).flatMap L = [] :=
        List.flatMap_eq_nil_iff.2 fun j hj => h j (List.mem_range.1 hj).ne
      rw [hnone, List.nil_append]
    · rw [ih (by omega), h n (Ne.symm hkn), List.append_nil]

theorem toNat_ofNat_class {k : Nat} (hk : k ≤ maxClass) : (UInt32.ofNat k).toNat = k := by
  rw [maxClass] at hk
  rw [UInt32.toNat_ofNat', Nat.mod_eq_of_lt (by omega)]

/-- A snapshot lists the runs of each class as the class has them. -/
theorem ofClass_saveFreeRuns (a : BuddyPageAllocator) {k : Nat} (hk : k ≤ maxClass) :
    (ofClass a.saveFreeRuns k).map FreeRun.start = a.freeBuddy k := by
  have hclass : ∀ j ∈ List.range (maxClass + 1),
      ((a.freeBuddy j).map fun start => (⟨start, UInt32.ofNat j⟩ : FreeRun)).filter
        (fun r => r.slabClass.toNat = k) =
      if j = k then (a.freeBuddy j).map fun start => ⟨start, UInt32.ofNat j⟩ else [] := by
    intro j hj
    rw [List.mem_range] at hj
    split_ifs with hjk
    · apply List.filter_eq_self.2
      intro r hr
      obtain ⟨start, -, rfl⟩ := List.mem_map.1 hr
      rw [toNat_ofNat_class (by omega), hjk]
      exact decide_eq_true rfl
    · apply List.filter_eq_nil_iff.2
      intro r hr
      obtain ⟨start, -, rfl⟩ := List.mem_map.1 hr
      rw [toNat_ofNat_class (by omega)]
      simpa using hjk
  rw [ofClass, saveFreeRuns, List.filter_flatMap, List.flatMap_congr hclass,
    flatMap_range_single (Nat.lt_succ_of_le hk) fun j hj => if_neg hj, if_pos rfl, List.map_map]
  exact List.map_id' _

/-- The runs of a snapshot stand class by class. -/
theorem sorted_saveFreeRuns (a : BuddyPageAllocator) :
    a.saveFreeRuns.Pairwise fun r q => r.slabClass.toNat ≤ q.slabClass.toNat := by
  rw [saveFreeRuns]
  rw [List.pairwise_flatMap]
  constructor
  · intro k _
    rw [List.pairwise_map]
    exact List.pairwise_of_forall fun _ _ => le_refl _
  · refine List.pairwise_lt_range.imp_of_mem ?_
    intro j k hj hk hjk r hr q hq
    obtain ⟨_, -, rfl⟩ := List.mem_map.1 hr
    obtain ⟨_, -, rfl⟩ := List.mem_map.1 hq
    rw [List.mem_range] at hj hk
    rw [toNat_ofNat_class (by omega), toNat_ofNat_class (by omega)]
    exact hjk.le

/-- Runs that stand class by class are the runs of the least class and the others behind them. -/
theorem eq_ofClass_append {runs : List FreeRun} {k : Nat}
    (hsorted : runs.Pairwise fun r q => r.slabClass.toNat ≤ q.slabClass.toNat)
    (hle : ∀ r ∈ runs, k ≤ r.slabClass.toNat) :
    runs = ofClass runs k ++ runs.filter fun r => k < r.slabClass.toNat := by
  induction runs with
  | nil => rfl
  | cons r runs ih =>
    rw [List.pairwise_cons] at hsorted
    have hr := hle r List.mem_cons_self
    by_cases hk : r.slabClass.toNat = k
    · have hrest := ih hsorted.2 fun q hq => hle q (List.mem_cons_of_mem _ hq)
      rw [ofClass, List.filter_cons_of_pos (by simpa using hk),
        List.filter_cons_of_neg (by simp; omega), List.cons_append, ← ofClass, ← hrest]
    · -- a run of a greater class: all behind it are of a greater class as well
      have hgreater : ∀ q ∈ runs, k < q.slabClass.toNat := fun q hq => by
        have := hsorted.1 q hq
        omega
      have hnone : ofClass (r :: runs) k = [] := by
        apply List.filter_eq_nil_iff.2
        intro q hq
        rcases List.mem_cons.1 hq with rfl | hq
        · simpa using hk
        · have := hgreater q hq
          simp
          omega
      have hall : (r :: runs).filter (fun q => k < q.slabClass.toNat) = r :: runs := by
        apply List.filter_eq_self.2
        intro q hq
        rcases List.mem_cons.1 hq with rfl | hq
        · simp
          omega
        · simpa using hgreater q hq
      rw [hnone, hall, List.nil_append]

/-- Runs that stand class by class are their classes, one after the other. -/
theorem flatMap_ofClass {runs : List FreeRun} (n k : Nat)
    (hsorted : runs.Pairwise fun r q => r.slabClass.toNat ≤ q.slabClass.toNat)
    (hbounds : ∀ r ∈ runs, k ≤ r.slabClass.toNat ∧ r.slabClass.toNat < k + n) :
    (List.range' k n).flatMap (ofClass runs) = runs := by
  induction n generalizing k runs with
  | zero =>
    have hnil : runs = [] := List.eq_nil_iff_forall_not_mem.2 fun r hr => by
      have := hbounds r hr
      omega
    rw [hnil]
    rfl
  | succ n ih =>
    have hrest := @ih (runs.filter fun r => k < r.slabClass.toNat) (k + 1)
      (hsorted.filter _) fun r hr => by
        have hmem := List.mem_filter.1 hr
        have hlt := hbounds r hmem.1
        have := of_decide_eq_true hmem.2
        omega
    have hsame : ∀ j ∈ List.range' (k + 1) n,
        ofClass (runs.filter fun r => k < r.slabClass.toNat) j = ofClass runs j := by
      intro j hj
      rw [List.mem_range'_1] at hj
      rw [ofClass, ofClass, List.filter_filter]
      apply List.filter_congr
      intro r _
      by_cases h : r.slabClass.toNat = j
      · simp [h]
        omega
      · simp [h]
    rw [List.range'_succ, List.flatMap_cons]
    rw [List.flatMap_congr hsame] at hrest
    rw [hrest]
    exact (eq_ofClass_append hsorted fun r hr => (hbounds r hr).1).symm

/-- Runs that stand class by class are what a snapshot of them lists. -/
theorem saveFreeRuns_of_classes {a : BuddyPageAllocator} {runs : List FreeRun}
    (hclasses : ∀ k ≤ maxClass, a.freeBuddy k = (ofClass runs k).map FreeRun.start)
    (hsorted : runs.Pairwise fun r q => r.slabClass.toNat ≤ q.slabClass.toNat)
    (hbounds : ∀ r ∈ runs, r.slabClass.toNat ≤ maxClass) : a.saveFreeRuns = runs := by
  have hclass : ∀ k ∈ List.range (maxClass + 1),
      ((a.freeBuddy k).map fun start => (⟨start, UInt32.ofNat k⟩ : FreeRun)) =
        ofClass runs k := by
    intro k hk
    rw [List.mem_range] at hk
    rw [hclasses k (by omega), List.map_map]
    refine (List.map_congr_left fun r hr => ?_).trans (List.map_id' _)
    have hr' : r.slabClass.toNat = k := of_decide_eq_true (List.mem_filter.1 hr).2
    rw [Function.comp_apply, ← hr', UInt32.ofNat_toNat]
  rw [saveFreeRuns, List.flatMap_congr hclass, List.range_eq_range']
  exact flatMap_ofClass _ 0 hsorted fun r hr => ⟨Nat.zero_le _, by have := hbounds r hr; omega⟩

theorem freeRunCount_eq (a : BuddyPageAllocator) : a.freeRunCount = a.saveFreeRuns.length := by
  rw [freeRunCount, saveFreeRuns]
  rw [List.length_flatMap]
  congr 1
  apply List.map_congr_left
  intro k _
  rw [List.length_map]

end BuddyPageAllocator

namespace Pager

open BuddyPageAllocator

/-- The header of a new file keeps its magic number and version. -/
theorem PageRun.header {capacity : Nat} {hcap : capacity < 2 ^ 32} {live : List PageId} {p : Pager}
    (h : PageRun capacity hcap live p) : p.header.magic = magic ∧ p.header.version = version := by
  rcases Nat.eq_zero_or_pos capacity with rfl | hpos
  · obtain ⟨-, rfl⟩ := h.eq_new
    exact ⟨rfl, rfl⟩
  induction h with
  | new hopen =>
    rw [run_openFile_nil] at hopen
    cases hopen
    exact ⟨rfl, rfl⟩
  | allocatePage hrun hcall ih =>
    obtain ⟨-, hframe, -⟩ := allocatePage_ok (hrun.kept hpos).owns hcall
    exact ⟨hframe.magic.trans ih.1, hframe.version.trans ih.2⟩
  | allocateFails hrun hcall ih =>
    obtain ⟨rfl, -⟩ := allocatePage_error (hrun.kept hpos).owns.backed hcall
    exact ih
  | freePage hrun hlive hcall ih =>
    have howns := (hrun.kept hpos).owns.perm (List.perm_cons_erase hlive).symm
    obtain ⟨p', hfree, -, hframe, -⟩ := freePage_ok howns
    rw [hfree] at hcall
    cases hcall
    exact ⟨hframe.magic.trans ih.1, hframe.version.trans ih.2⟩
  | freeFails hrun hlive hcall ih =>
    have howns := (hrun.kept hpos).owns.perm (List.perm_cons_erase hlive).symm
    obtain ⟨p', hfree, -⟩ := freePage_ok howns
    rw [hfree] at hcall
    cases hcall

/-- The free pages of such a state are distinct, and on the file behind the header page. -/
theorem PageRun.pool {capacity : Nat} {hcap : capacity < 2 ^ 32} {live : List PageId} {p : Pager}
    (h : PageRun capacity hcap live p) : p.allocator.pool.Nodup ∧
      (∀ x ∈ p.allocator.pool, x ≠ 0 ∧ x.toNat < p.header.pageCount.toNat) ∧
      0 < p.header.pageCount.toNat ∧ 0 < p.file.length := by
  rcases Nat.eq_zero_or_pos capacity with rfl | hpos
  · obtain ⟨-, rfl⟩ := h.eq_new
    exact ⟨List.nodup_nil, fun x hx => absurd hx List.not_mem_nil, Nat.one_pos, Nat.one_pos⟩
  · have howns := (h.kept hpos).owns
    have hcount := howns.backed.pos
    have hfile := howns.backed.onFile
    exact ⟨(List.nodup_append.1 howns.nodup).1,
      fun x hx => howns.range x (List.mem_append_left _ hx), hcount, by omega⟩

/-- Runs whose pages are distinct and on the file are all loaded again. -/
theorem loadedRuns_eq_self {a : BuddyPageAllocator} {count : PageId} {runs : List FreeRun}
    (hfresh : ∀ i, a.isFree i = false) (hclass : ∀ r ∈ runs, r.slabClass.toNat ≤ maxClass)
    (hnodup : (runsPages runs).Nodup)
    (hrange : ∀ x ∈ runsPages runs, x ≠ 0 ∧ x.toNat < count.toNat) :
    a.loadedRuns runs count.toNat = runs := by
  have hstart : ∀ r ∈ runs, r.start ∈ runPages r.slabClass.toNat r.start := fun r _ =>
    List.mem_map.2 ⟨0, List.mem_range.2 (Nat.two_pow_pos _), by simp⟩
  have hbounds : ∀ r ∈ runs, r.start ≠ 0 ∧ r.start.toNat < count.toNat := fun r hr =>
    hrange _ (List.mem_flatMap.2 ⟨r, hr, hstart r hr⟩)
  have hwithin : ∀ r ∈ runs, Within count.toNat r := by
    intro r hr
    by_contra hout
    have hmem := mem_runPages_of_not_within (hbounds r hr).2 hout
    exact absurd (hrange _ (List.mem_flatMap.2 ⟨r, hr, hmem⟩)).2 (lt_irrefl _)
  have hpages : runs.flatMap (onFile count.toNat) = (runsPages runs).map UInt32.toNat := by
    rw [runsPages, List.map_flatMap]
    exact (List.flatMap_congr fun r hr => map_toNat_runPages (hwithin r hr)).symm
  apply acceptedRuns_eq_self (fun r hr => ⟨hclass r hr, hbounds r hr⟩)
  · rw [hpages]
    exact hnodup.map fun x y hxy => UInt32.toNat_inj.1 hxy
  · exact fun i _ => hfresh i

theorem slabClass_persistedRuns (p : Pager) : ∀ r ∈ p.persistedRuns, r.slabClass.toNat ≤ maxClass :=
  fun _ hr => (slabClass_saveFreeRuns (List.mem_of_mem_take hr)).1

/-- The runs on the header page are all loaded again. -/
theorem loadedRuns_persistedRuns {p : Pager} (hnodup : p.allocator.pool.Nodup)
    (hrange : ∀ x ∈ p.allocator.pool, x ≠ 0 ∧ x.toNat < p.header.pageCount.toNat) :
    (BuddyPageAllocator.new.ensureBitmapSize p.header.pageCount.toNat).loadedRuns p.persistedRuns
      p.header.pageCount.toNat = p.persistedRuns := by
  have hlisted := listed_sublist p
  exact loadedRuns_eq_self (fun i => isFree_ensureBitmapSize _ _ i) p.slabClass_persistedRuns
    (hlisted.nodup hnodup) fun x hx => hrange x (hlisted.subset hx)

/-- The next process has the free pages that are listed on the header page. -/
theorem Owns.pool_reopened {q : Pager} {live : List PageId} (hq : q.Owns live) (file : Image)
    (capacity : Nat) (h : capacity < 2 ^ 32) :
    (q.reopened file capacity h).allocator.pool.Perm q.listed := by
  have hperm := pool_loadFreeRuns_perm
    (BuddyPageAllocator.new.ensureBitmapSize q.header.pageCount.toNat) q.persistedRuns
    q.header.pageCount.toNat
  rwa [loadedRuns_persistedRuns (List.nodup_append.1 hq.nodup).1
    fun x hx => hq.range x (List.mem_append_left _ hx)] at hperm

/-- Closing a file in such a state and opening it again, on any disk, restores the free runs that
the header page has room for, in their order; when it has room for all, every class has the runs
that it had. Restored free pages were free. -/
theorem reopen_restores_free_runs {capacity : Nat} {hcap : capacity < 2 ^ 32} {live : List PageId}
    {p : Pager} (hrun : PageRun capacity hcap live p) {capacity' : Nat} (h : capacity' < 2 ^ 32) :
    ∃ file p' q, close.run p = .ok file p' ∧
      openFile.run (unloaded file capacity' h) = .ok () q ∧
      q.allocator.saveFreeRuns = p.allocator.saveFreeRuns.take kMaxPersistedRuns ∧
      (p.allocator.freeRunCount ≤ kMaxPersistedRuns →
        ∀ k ≤ maxClass, q.allocator.freeBuddy k = p.allocator.freeBuddy k) ∧
      ∀ x ∈ q.allocator.pool, x ∈ p.allocator.pool := by
  obtain ⟨hnodup, hrange, hcount, hfile⟩ := hrun.pool
  obtain ⟨hmagic, hver⟩ := hrun.header
  have hlisted := listed_sublist p
  have hmem := p.slabClass_persistedRuns
  have hloaded := loadedRuns_persistedRuns hnodup hrange
  have hclose : close.run p = .ok p.writeHeader.file p.writeHeader := by
    rw [close, EStateM.run_bind, run_flushHeader hcount]
    rfl
  have hopen := run_openFile_header h (file_zero_writeHeader hfile) hmagic hver
  -- what the reopened allocator has in its classes is what the snapshot has in them
  have hbuddy : ∀ k, (p.reopened p.writeHeader.file capacity' h).allocator.freeBuddy k =
      (ofClass p.persistedRuns k).map FreeRun.start := by
    intro k
    show (BuddyPageAllocator.loadFreeRuns _ _ _).freeBuddy k = _
    rw [freeBuddy_loadFreeRuns, hloaded]
    rfl
  refine ⟨_, _, _, hclose, hopen, ?_, ?_, ?_⟩
  · exact saveFreeRuns_of_classes (fun k _ => hbuddy k)
      ((sorted_saveFreeRuns _).sublist (List.take_sublist _ _)) hmem
  · intro hroom k hk
    have hall : p.persistedRuns = p.allocator.saveFreeRuns := by
      rw [persistedRuns, List.take_of_length_le]
      rwa [← freeRunCount_eq]
    rw [hbuddy k, hall, ofClass_saveFreeRuns _ hk]
  · intro x hx
    exact hlisted.subset ((pool_reopened p _ capacity' h).subset hx)

/-- Free runs of three classes come back. -/
theorem reopen_restores_runs_of_classes : ∃ file p' q, PageRun 16 (by decide) [7, 6, 3, 1] runsFile ∧
    close.run runsFile = .ok file p' ∧ openFile.run (unloaded file 32 (by decide)) = .ok () q ∧
    q.allocator.saveFreeRuns = [⟨2, 0⟩, ⟨4, 1⟩, ⟨8, 2⟩] ∧ q.allocator.freeBuddy 0 = [2] ∧
    q.allocator.freeBuddy 1 = [4] ∧ q.allocator.freeBuddy 2 = [8] := by
  obtain ⟨file, p', q, hclose, hopen, hsaved, hclasses, -⟩ :=
    reopen_restores_free_runs pageRun_runsFile (show 32 < 2 ^ 32 by decide)
  obtain ⟨-, hpage, htwo, hfour, hruns⟩ := runs_runsFile
  have hfew : runsFile.allocator.freeRunCount ≤ kMaxPersistedRuns := by
    rw [hruns]
    decide
  refine ⟨file, p', q, pageRun_runsFile, hclose, hopen, ?_, ?_, ?_, ?_⟩
  · rw [hsaved]
    decide +kernel
  · rw [hclasses hfew 0 (by decide), hpage]
  · rw [hclasses hfew 1 (by decide), htwo]
  · rw [hclasses hfew 2 (by decide), hfour]

end Pager

end OpenDB
