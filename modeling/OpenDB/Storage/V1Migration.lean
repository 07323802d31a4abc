import OpenDB.Library.MaximalRuns
import OpenDB.Storage.PageRuns

/-!
# Migration of version 1 files

A version 1 file keeps its free pages in a chain: the header has the first one, and every free page
has the next one in its first four bytes. `migrateV1ToV2` walks the chain, marks the pages on it,
and gives each maximal run of marked pages to the allocator with one `freePages`.

The runs that are found are the maximal runs of the chain (`isMaximalRun_of_mem`), and they are parked
with the classes that their lengths round up to. So the free pages after the migration are those of
the chain, and later allocations hand out no page that was in use, if and only if the length of every
maximal run is a power of two that some class has (`migration_safe_iff`).
-/

set_option autoImplicit false

namespace OpenDB

open OpenDB.Library BuddyPageAllocator

namespace Pager

/-! ## Version 1 files -/

/-- The next page of the chain, in the first bytes of a free page. -/
def chainNext (raw : RawPage) : PageId := UInt32.ofNat (raw.field 0 4)

/-- The free chain of a file from a page id on. An id that is no data page of the file ends it. -/
inductive V1Chain (file : Image) (count : PageId) : PageId → List PageId → Prop where
  | done {cur : PageId} (h : cur = 0 ∨ count ≤ cur) : V1Chain file count cur []
  | link {cur : PageId} {raw : RawPage} {rest : List PageId} (hcur : cur ≠ 0) (hlt : cur < count)
      (hpage : file[cur.toNat]? = some raw) (hrest : V1Chain file count (chainNext raw) rest) :
      V1Chain file count cur (cur :: rest)

/-- A version 1 file of `count` pages with an acyclic free chain. -/
structure V1Image (file : Image) (count : PageId) (chain : List PageId) : Prop where
  header : ∃ page, file[0]? = some page ∧ page.field 0 4 = magic.toNat ∧ page.field 4 2 = 1 ∧
    page.field 8 4 = count.toNat ∧ V1Chain file count (UInt32.ofNat (page.field 12 4)) chain
  count_ne_zero : count ≠ 0
  onFile : count.toNat ≤ file.length
  acyclic : chain.Nodup

theorem V1Chain.mem {file : Image} {count cur : PageId} {chain : List PageId}
    (h : V1Chain file count cur chain) : ∀ x ∈ chain, x ≠ 0 ∧ x.toNat < count.toNat := by
  induction h with
  | done => exact fun x hx => absurd hx List.not_mem_nil
  | link hcur hlt _ _ ih =>
    intro x hx
    rcases List.mem_cons.1 hx with rfl | hx
    · exact ⟨hcur, UInt32.lt_iff_toNat_lt.1 hlt⟩
    · exact ih x hx

/-- Distinct pages of a file are no more than the file has. -/
theorem length_le_of_nodup {count : PageId} {pages : List PageId} (hnodup : pages.Nodup)
    (hlt : ∀ x ∈ pages, x.toNat < count.toNat) : pages.length ≤ count.toNat := by
  have hmap : (pages.map UInt32.toNat).Nodup := hnodup.map fun x y h => UInt32.toNat_inj.1 h
  have hsub : pages.map UInt32.toNat ⊆ List.range count.toNat := by
    intro i hi
    obtain ⟨x, hx, rfl⟩ := List.mem_map.1 hi
    exact List.mem_range.2 (hlt x hx)
  have hlen := (List.subperm_of_subset hmap hsub).length_le
  rwa [List.length_map, List.length_range] at hlen

/-- The walk collects the chain, last page first. -/
theorem freeChain_eq {p : Pager} {cur : PageId} {chain seen : List PageId} {fuel : Nat}
    (h : V1Chain p.file p.header.pageCount cur chain) (hfuel : chain.length < fuel)
    (hnodup : (chain ++ seen).Nodup) : p.freeChain fuel cur seen = chain.reverse ++ seen := by
  induction h generalizing seen fuel with
  | @done cur hend =>
    obtain ⟨fuel, rfl⟩ := Nat.exists_eq_succ_of_ne_zero (Nat.ne_zero_of_lt hfuel)
    have hstop : cur = invalidPage ∨ cur = 0 ∨ p.header.pageCount ≤ cur ∨ cur ∈ seen := by
      tauto
    rw [freeChain, if_pos hstop]
    rfl
  | @link cur raw rest hcur hlt hpage _ ih =>
    obtain ⟨fuel, rfl⟩ := Nat.exists_eq_succ_of_ne_zero (Nat.ne_zero_of_lt hfuel)
    rw [List.cons_append, List.nodup_cons, List.mem_append, not_or] at hnodup
    rw [UInt32.lt_iff_toNat_lt] at hlt
    have hgo : ¬ (cur = invalidPage ∨ cur = 0 ∨ p.header.pageCount ≤ cur ∨ cur ∈ seen) := by
      rintro (rfl | h | h | h)
      · have := p.header.pageCount.toNat_lt
        have hlast : invalidPage.toNat = 2 ^ 32 - 1 := rfl
        omega
      · exact hcur h
      · rw [UInt32.le_iff_toNat_le] at h
        omega
      · exact hnodup.1.2 h
    have hread : p.readRaw cur = some raw := by
      rw [readRaw, if_neg, hpage]
      rw [UInt32.le_iff_toNat_le]
      omega
    rw [freeChain, if_neg hgo, hread]
    have hrest : (rest ++ cur :: seen).Nodup := by
      refine List.perm_middle.nodup_iff.2 (List.nodup_cons.2 ⟨?_, hnodup.2⟩)
      rw [List.mem_append, not_or]
      exact hnodup.1
    rw [List.length_cons] at hfuel
    rw [chainNext] at ih
    dsimp only
    rw [ih (Nat.lt_of_succ_lt_succ hfuel) hrest, List.reverse_cons, List.append_assoc]
    rfl

/-! ## The runs of the chain -/

/-- The runs that are found cover the marked pages. -/
theorem covered_freeRunsFrom (b : Nat → Bool) (n i : Nat) :
    covered (freeRunsFrom b n i none) = (List.range' i n).filter b ∧
      ∀ start len, start + len = i → covered (freeRunsFrom b n i (some (start, len))) =
        List.range' start len ++ (List.range' i n).filter b := by
  induction n generalizing i with
  | zero =>
    refine ⟨rfl, fun start len _ => ?_⟩
    simp [freeRunsFrom, covered]
  | succ n ih =>
    obtain ⟨hnone, hsome⟩ := ih (i + 1)
    rw [List.range'_succ]
    constructor
    · rw [freeRunsFrom]
      cases hi : b i with
      | false => rw [if_neg (by simp), hnone, List.filter_cons_of_neg (by simp [hi])]
      | true =>
        rw [if_pos rfl, hsome i 1 rfl, List.filter_cons_of_pos hi]
        rfl
    · intro start len hend
      rw [freeRunsFrom]
      cases hi : b i with
      | false =>
        rw [if_neg (by simp), List.filter_cons_of_neg (by simp [hi]), covered, List.flatMap_cons,
          ← covered, hnone]
      | true =>
        rw [if_pos rfl, hsome start (len + 1) (by omega), List.filter_cons_of_pos hi,
          List.range'_concat, List.append_assoc, Nat.one_mul, hend]
        rfl

/-- They are maximal: a run that has been begun is one up to the page before the next, and no page is
marked behind the last. -/
theorem isMaximalRun_of_mem {b : Nat → Bool} {n i : Nat} (hlast : b (i + n) = false) :
    ((i = 0 ∨ b (i - 1) = false) → ∀ r ∈ freeRunsFrom b n i none, IsMaximalRun b r.1 r.2) ∧
      ∀ start len, start + len = i → 0 < len → (∀ j, start ≤ j → j < i → b j = true) →
        (start = 0 ∨ b (start - 1) = false) →
        ∀ r ∈ freeRunsFrom b n i (some (start, len)), IsMaximalRun b r.1 r.2 := by
  induction n generalizing i with
  | zero =>
    refine ⟨fun _ r hr => absurd hr List.not_mem_nil, ?_⟩
    rintro start len rfl hlen hinside hbefore r hr
    rw [List.mem_singleton.1 hr]
    exact ⟨hlen, hinside, hbefore, hlast⟩
  | succ n ih =>
    obtain ⟨hnone, hsome⟩ := ih (i := i + 1) (by rwa [Nat.add_right_comm, Nat.add_assoc])
    constructor
    · intro hbefore
      rw [freeRunsFrom]
      cases hi : b i with
      -- page `i` is taken: no run is open, so none ends here
      | false =>
        rw [if_neg (by simp)]
        exact hnone (Or.inr hi)
      | true =>
        rw [if_pos rfl]
        refine hsome i 1 rfl Nat.one_pos (fun j hij hj => ?_) hbefore
        rw [show j = i by omega]
        exact hi
    · intro start len hend hlen hinside hbefore
      rw [freeRunsFrom]
      cases hi : b i with
      | false =>
        rw [if_neg (by simp)]
        intro r hr
        rcases List.mem_cons.1 hr with rfl | hr
        · refine ⟨hlen, fun j hj hlt => hinside j hj (by omega), hbefore, ?_⟩
          rw [hend]
          exact hi
        · exact hnone (Or.inr hi) r hr
      | true =>
        rw [if_pos rfl]
        refine hsome start (len + 1) (by omega) (by omega) (fun j hj hlt => ?_) hbefore
        by_cases hji : j = i
        · rw [hji]
          exact hi
        · exact hinside j hj (by omega)

/-- Only the marks of the pages that are looked at count. -/
theorem freeRunsFrom_congr {b b' : Nat → Bool} {n i : Nat} {run : Option (Nat × Nat)}
    (h : ∀ j, i ≤ j → j < i + n → b j = b' j) :
    freeRunsFrom b n i run = freeRunsFrom b' n i run := by
  induction n generalizing i run with
  | zero => cases run <;> rfl
  | succ n ih =>
    have hrest : ∀ run, freeRunsFrom b n (i + 1) run = freeRunsFrom b' n (i + 1) run :=
      fun run => ih fun j hj hlt => h j (by omega) (by omega)
    have hi := h i (Nat.le_refl i) (by omega)
    cases run with
    | none => rw [freeRunsFrom, freeRunsFrom, hi, hrest, hrest]
    | some r => rw [freeRunsFrom, freeRunsFrom, hi, hrest, hrest]

/-- The numbers of the pages of a chain. -/
def marked (chain : List PageId) (i : Nat) : Bool := decide (i ∈ chain.map UInt32.toNat)

/-- The runs of a chain that are given to the allocator. -/
def chainRuns (count : PageId) (chain : List PageId) : List (Nat × Nat) :=
  freeRunsFrom (marked chain) (count.toNat - 1) 1 none

theorem covered_chainRuns (count : PageId) (chain : List PageId) :
    covered (chainRuns count chain) = (List.range' 1 (count.toNat - 1)).filter (marked chain) :=
  (covered_freeRunsFrom _ _ _).1

/-- A page is marked when the walk has come by it. -/
theorem decide_mem_eq_marked {chain walked : List PageId} (hsame : ∀ x, x ∈ walked ↔ x ∈ chain)
    {i : Nat} (hi : i < 2 ^ 32) : decide (UInt32.ofNat i ∈ walked) = marked chain i := by
  rw [marked, decide_eq_decide, hsame, List.mem_map]
  constructor
  · intro hmem
    refine ⟨_, hmem, ?_⟩
    rw [UInt32.toNat_ofNat', Nat.mod_eq_of_lt hi]
  · rintro ⟨x, hx, rfl⟩
    rwa [UInt32.ofNat_toNat]

section

variable {file : Image} {count : PageId} {chain : List PageId}

theorem V1Image.count_pos (image : V1Image file count chain) : 0 < count.toNat := by
  by_contra hzero
  exact image.count_ne_zero (UInt32.toNat_inj.1 (by rw [UInt32.toNat_zero]; omega))

theorem V1Image.mem (image : V1Image file count chain) {x : PageId} (hx : x ∈ chain) :
    x ≠ 0 ∧ x.toNat < count.toNat := by
  obtain ⟨page, -, -, -, -, hchain⟩ := image.header
  exact hchain.mem x hx

/-- The pages of the chain are data pages of the file. -/
theorem V1Image.lt_of_marked (image : V1Image file count chain) {i : Nat}
    (hi : marked chain i = true) : 1 ≤ i ∧ i < count.toNat := by
  obtain ⟨x, hx, rfl⟩ := List.mem_map.1 (of_decide_eq_true hi)
  obtain ⟨hne, hlt⟩ := image.mem hx
  exact ⟨(ne_zero_iff x).1 hne, hlt⟩

theorem V1Image.marked_eq_false (image : V1Image file count chain) {i : Nat}
    (hi : i = 0 ∨ count.toNat ≤ i) : marked chain i = false := by
  rw [Bool.eq_false_iff]
  intro htrue
  have hin := image.lt_of_marked htrue
  omega

theorem V1Image.isMaximalRun (image : V1Image file count chain) {r : Nat × Nat}
    (hr : r ∈ chainRuns count chain) : IsMaximalRun (marked chain) r.1 r.2 := by
  have hpos := image.count_pos
  exact (isMaximalRun_of_mem (image.marked_eq_false (Or.inr (by omega)))).1
    (Or.inr (image.marked_eq_false (Or.inl rfl))) r hr

/-- The runs given to the allocator are the maximal runs of the chain. -/
theorem V1Image.mem_chainRuns (image : V1Image file count chain) {start len : Nat}
    (hrun : IsMaximalRun (marked chain) start len) : (start, len) ∈ chainRuns count chain := by
  have hlen := hrun.pos
  have hfirst := image.lt_of_marked (hrun.inside start (Nat.le_refl _) (by omega))
  refine mem_of_cover (fun r hr => image.isMaximalRun hr) (covered_chainRuns count chain) hrun ?_
  rw [List.mem_range'_1]
  omega

/-- They end within the file. -/
theorem V1Image.end_le (image : V1Image file count chain) {start len : Nat}
    (hrun : IsMaximalRun (marked chain) start len) :
    1 ≤ start ∧ start + len ≤ count.toNat := by
  have hlen := hrun.pos
  have hfirst := image.lt_of_marked (hrun.inside start (Nat.le_refl _) (by omega))
  have hlast := image.lt_of_marked (hrun.inside (start + len - 1) (by omega) (by omega))
  omega

end

/-! ## Parking the runs -/

/-- The pages of a run of some length, rounded up to its class. -/
def parkedPages (r : Nat × Nat) : List PageId := runPages (classFor r.2) (UInt32.ofNat r.1)

/-- Runs that have been given to the allocator are all in the pool, rounded up. -/
theorem pool_freeRuns {runs : List (Nat × Nat)} {a a' : BuddyPageAllocator}
    (h : freeRuns runs a = .ok a') :
    (∀ r ∈ runs, classFor r.2 ≤ maxClass) ∧
      a'.pool.Perm (runs.flatMap parkedPages ++ a.pool) := by
  induction runs generalizing a with
  | nil =>
    cases h
    refine ⟨fun r hr => absurd hr List.not_mem_nil, ?_⟩
    rw [List.flatMap_nil, List.nil_append]
  | cons r runs ih =>
    obtain ⟨start, len⟩ := r
    rw [freeRuns] at h
    cases ha : a.freePages (UInt32.ofNat start) len with
    | error e =>
      rw [ha] at h
      cases h
    | ok a₁ =>
      rw [ha] at h
      obtain ⟨hclass, hpool⟩ := ih h
      obtain ⟨-, -, hfirst⟩ := of_freePages_eq_ok ha
      refine ⟨fun r hr => ?_, ?_⟩
      · rcases List.mem_cons.1 hr with rfl | hr
        · exact hfirst
        · exact hclass r hr
      · refine hpool.trans ((List.Perm.append_left _ (pool_freeRun ha)).trans ?_)
        rw [← List.append_assoc, List.flatMap_cons]
        exact List.perm_append_comm.append_right _

/-- Runs that the bitmap covers and that have classes can be given to the allocator. -/
theorem exists_freeRuns {runs : List (Nat × Nat)} {a : BuddyPageAllocator}
    (h : ∀ r ∈ runs, r.2 ≠ 0 ∧ r.1 < 2 ^ 32 ∧ r.1 + r.2 ≤ a.allocated.length ∧
      classFor r.2 ≤ maxClass) : ∃ a', freeRuns runs a = .ok a' := by
  induction runs generalizing a with
  | nil => exact ⟨a, rfl⟩
  | cons r runs ih =>
    obtain ⟨start, len⟩ := r
    obtain ⟨hlen, hstart, hbits, hclass⟩ := h _ List.mem_cons_self
    have hnum : (UInt32.ofNat start).toNat = start := by
      rw [UInt32.toNat_ofNat', Nat.mod_eq_of_lt hstart]
    have hok := @freePages_eq_ok a (UInt32.ofNat start) len hlen (by rw [hnum]; exact hbits) hclass
    rw [freeRuns, hok]
    refine ih fun r hr => ?_
    rw [length_markPages]
    exact h r (List.mem_cons_of_mem _ hr)

/-- Runs whose lengths are those of classes are parked with their own pages only. -/
theorem flatMap_parkedPages {runs : List (Nat × Nat)} (h : ∀ r ∈ runs, IsSlab r.2) :
    runs.flatMap parkedPages = (covered runs).map UInt32.ofNat := by
  rw [covered, List.map_flatMap]
  apply List.flatMap_congr
  intro r hr
  have hexact := (h r hr).2
  rw [parkedPages, runPages, ← hexact, List.range'_eq_map_range, List.map_map]
  apply List.map_congr_left
  intro i _
  rw [Function.comp_apply, UInt32.ofNat_add]

/-- What rounding up adds to a run begins with the page behind it. -/
theorem mem_parkedPages_of_not_slab {start len : Nat} (hclass : classFor len ≤ maxClass)
    (h : ¬ IsSlab len) : UInt32.ofNat (start + len) ∈ parkedPages (start, len) := by
  have hle := le_two_pow_classFor len
  have hne : len ≠ 2 ^ classFor len := fun hexact => h ⟨hclass, hexact⟩
  refine List.mem_map.2 ⟨len, List.mem_range.2 (by dsimp only; omega), ?_⟩
  rw [UInt32.ofNat_add]

/-! ## Opening a version 1 file -/

/-- The pager before the migration. -/
def loadedV1 (file : Image) (count head : PageId) (capacity : Nat) (h : capacity < 2 ^ 32) : Pager :=
  { unloaded file capacity h with header := ⟨0, 1, count, head⟩ }

/-- The allocator once all data pages count as allocated. -/
def allAllocated (count : PageId) : BuddyPageAllocator :=
  if 1 < count.toNat then BuddyPageAllocator.new.onFileExtended 1 (count.toNat - 1)
  else BuddyPageAllocator.new

/-- The pager after the migration, with the allocator that has the runs. -/
def migrated (p : Pager) (a : BuddyPageAllocator) : Pager :=
  ({ p with allocator := a, header := { p.header with version := version } } : Pager).writeHeader

theorem pool_allAllocated (count : PageId) : (allAllocated count).pool = [] := by
  have hbuddy : (allAllocated count).freeBuddy = fun _ => [] := by
    unfold allAllocated
    split_ifs
    · exact freeBuddy_onFileExtended _ _ _
    · rfl
  rw [pool_eq_nil_iff]
  intro k _
  rw [hbuddy]

theorem le_length_allAllocated {count : PageId} (hpos : 1 < count.toNat) :
    count.toNat ≤ (allAllocated count).allocated.length := by
  have hbits := (le_length_allocated_onFileExtended BuddyPageAllocator.new 1 (count.toNat - 1)).2
  rw [allAllocated, if_pos hpos]
  rw [UInt32.toNat_one] at hbits
  omega

/-- Opening a version 1 file: the maximal runs of the chain are given to the allocator. -/
theorem V1Image.run_openFile {file : Image} {count : PageId} {chain : List PageId}
    (image : V1Image file count chain) {capacity : Nat} (h : capacity < 2 ^ 32) :
    ∃ head, openFile.run (unloaded file capacity h) =
      match freeRuns (chainRuns count chain) (allAllocated count) with
      | .ok a => .ok () ((loadedV1 file count head capacity h).migrated a)
      | .error e => .error e (loadedV1 file count head capacity h) := by
  obtain ⟨page, hpage, hmagic, hver, hcount, hchain⟩ := image.header
  refine ⟨UInt32.ofNat (page.field 12 4), ?_⟩
  set p := loadedV1 file count (UInt32.ofNat (page.field 12 4)) capacity h
  -- the walk ends within its bound; which pages it has come by does not depend on their order
  have hwalk : p.freeChain (count.toNat + 1) p.header.freeHead [] = chain.reverse := by
    have hlen := length_le_of_nodup image.acyclic fun x hx => (image.mem hx).2
    rw [freeChain_eq hchain (by omega) (by rw [List.append_nil]; exact image.acyclic),
      List.append_nil]
  have hruns : freeRunsFrom (fun i => decide (UInt32.ofNat i ∈ p.freeChain (count.toNat + 1)
      p.header.freeHead [])) (count.toNat - 1) 1 none = chainRuns count chain := by
    have hcount := count.toNat_lt
    rw [hwalk]
    exact freeRunsFrom_congr fun i _ hi =>
      decide_mem_eq_marked (fun x => List.mem_reverse) (by omega)
  have hmigrate : migrateV1ToV2.run p =
      match freeRuns (chainRuns count chain) (allAllocated count) with
      | .ok a => .ok () (p.migrated a)
      | .error e => .error e p := by
    unfold migrateV1ToV2
    rw [EStateM.run_bind, EStateM.run_get]
    dsimp only
    rw [show p.header.pageCount = count from rfl, hruns,
      show p.allocator = BuddyPageAllocator.new from rfl, ← allAllocated]
    cases freeRuns (chainRuns count chain) (allAllocated count) with
    | error e => rfl
    | ok a =>
      dsimp only
      rw [EStateM.run_bind]
      exact run_flushHeader image.count_pos
  have hrest : (do migrateV1ToV2; return true : EStateM Fault Pager Bool).run p =
      match freeRuns (chainRuns count chain) (allAllocated count) with
      | .ok a => .ok true (p.migrated a)
      | .error e => .error e p := by
    rw [EStateM.run_bind, hmigrate]
    cases freeRuns (chainRuns count chain) (allAllocated count) <;> rfl
  have hload : loadHeader.run (unloaded file capacity h) =
      match freeRuns (chainRuns count chain) (allAllocated count) with
      | .ok a => .ok true (p.migrated a)
      | .error e => .error e p := by
    unfold loadHeader
    rw [EStateM.run_bind, EStateM.run_get]
    have hfile : (unloaded file capacity h).file[0]? = some page := hpage
    dsimp only
    rw [hfile]
    dsimp only
    rw [hmagic, if_neg (by simp), hver, if_pos rfl, hcount, UInt32.ofNat_toNat, EStateM.run_bind]
    exact hrest
  rw [openFile, EStateM.run_bind, hload]
  cases freeRuns (chainRuns count chain) (allAllocated count) <;> rfl

/-! ## Safety of the migration -/

/-- What the migration is to do: the file opens, the free pages are those of the chain, and however
many pages are allocated later, no page is handed out twice, and only pages of the chain and pages
that the file has been extended by. -/
def MigratesSafely (file : Image) (count : PageId) (chain : List PageId) (capacity : Nat)
    (h : capacity < 2 ^ 32) : Prop :=
  ∃ p, openFile.run (unloaded file capacity h) = .ok () p ∧ p.allocator.pool.Perm chain ∧
    ∀ pages q, AllocRun p pages q → pages.Nodup ∧ ∀ x ∈ pages, x ∈ chain ∨
      (count.toNat ≤ x.toNat ∧ x ∈ pagesFrom count (q.file.length - file.length))

section

variable {file : Image} {count : PageId} {chain : List PageId}

/-- A migrated file has the runs of the chain in its pool, rounded up. -/
theorem V1Image.opened (image : V1Image file count chain) {capacity : Nat} {h : capacity < 2 ^ 32}
    {p : Pager} (hopen : openFile.run (unloaded file capacity h) = .ok () p) :
    (∀ r ∈ chainRuns count chain, classFor r.2 ≤ maxClass) ∧
      p.allocator.pool.Perm ((chainRuns count chain).flatMap parkedPages) ∧
      p.header.pageCount = count ∧ p.file.length = file.length := by
  obtain ⟨head, hrun⟩ := image.run_openFile h
  rw [hrun] at hopen
  cases ha : freeRuns (chainRuns count chain) (allAllocated count) with
  | error e =>
    rw [ha] at hopen
    cases hopen
  | ok a =>
    rw [ha] at hopen
    cases hopen
    obtain ⟨hclass, hpool⟩ := pool_freeRuns ha
    rw [pool_allAllocated, List.append_nil] at hpool
    have hpos := image.count_pos
    have hfile := image.onFile
    refine ⟨hclass, hpool, rfl, length_write ?_⟩
    show 0 < file.length
    omega

/-- A maximal run that is rounded up parks the page behind it, which is not on the chain. -/
theorem V1Image.exists_live_in_pool (image : V1Image file count chain) {capacity : Nat}
    {h : capacity < 2 ^ 32} {p : Pager}
    (hopen : openFile.run (unloaded file capacity h) = .ok () p) {start len : Nat}
    (hrun : IsMaximalRun (marked chain) start len) (hslab : ¬ IsSlab len) :
    UInt32.ofNat (start + len) ∈ p.allocator.pool ∧ UInt32.ofNat (start + len) ∉ chain := by
  obtain ⟨hclass, hpool, -, -⟩ := image.opened hopen
  have hmem := image.mem_chainRuns hrun
  refine ⟨hpool.mem_iff.2 (List.mem_flatMap.2
    ⟨_, hmem, mem_parkedPages_of_not_slab (hclass _ hmem) hslab⟩), fun hchain => ?_⟩
  have hcount := count.toNat_lt
  have hend := image.end_le hrun
  have hmarked : marked chain (start + len) = true := by
    rw [← decide_mem_eq_marked (fun _ => Iff.rfl) (by omega)]
    exact decide_eq_true hchain
  rw [hrun.behind] at hmarked
  cases hmarked

/-- When all lengths are those of classes, the file opens with the pages of the chain as its free
pages. -/
theorem V1Image.exists_opened (image : V1Image file count chain) {capacity : Nat}
    (h : capacity < 2 ^ 32)
    (hslab : ∀ start len, IsMaximalRun (marked chain) start len → IsSlab len) :
    ∃ p, openFile.run (unloaded file capacity h) = .ok () p ∧ p.allocator.pool.Perm chain := by
  have hruns : ∀ r ∈ chainRuns count chain, IsSlab r.2 :=
    fun r hr => hslab r.1 r.2 (image.isMaximalRun hr)
  have hcount := count.toNat_lt
  obtain ⟨a, ha⟩ := @exists_freeRuns (chainRuns count chain) (allAllocated count) fun r hr => by
    have hrun := image.isMaximalRun hr
    have hlen := hrun.pos
    have hend := image.end_le hrun
    have hbits := @le_length_allAllocated count (by omega)
    exact ⟨by omega, by omega, by omega, (hruns r hr).1⟩
  obtain ⟨head, hrun⟩ := image.run_openFile h
  rw [ha] at hrun
  refine ⟨_, hrun, ?_⟩
  obtain ⟨-, hpool, -, -⟩ := image.opened hrun
  rw [flatMap_parkedPages hruns, covered_chainRuns] at hpool
  refine hpool.trans ((List.perm_ext_iff_of_nodup ?_ image.acyclic).2 fun x => ?_)
  · -- numbers below the page count are page ids
    have hnumbers : (List.range' 1 (count.toNat - 1)).Nodup := List.nodup_range'
    refine (hnumbers.filter _).map_on fun i hi j hj hij => ?_
    have hi := List.mem_range'_1.1 (List.mem_filter.1 hi).1
    have hj := List.mem_range'_1.1 (List.mem_filter.1 hj).1
    have hnum := congrArg UInt32.toNat hij
    rwa [UInt32.toNat_ofNat', UInt32.toNat_ofNat', Nat.mod_eq_of_lt (by omega),
      Nat.mod_eq_of_lt (by omega)] at hnum
  · rw [List.mem_map]
    constructor
    · rintro ⟨i, hi, rfl⟩
      obtain ⟨hrange, hmarked⟩ := List.mem_filter.1 hi
      rw [List.mem_range'_1] at hrange
      rw [← decide_mem_eq_marked (fun _ => Iff.rfl) (by omega)] at hmarked
      exact of_decide_eq_true hmarked
    · intro hx
      obtain ⟨hne, hlt⟩ := image.mem hx
      rw [ne_zero_iff] at hne
      refine ⟨x.toNat, List.mem_filter.2 ⟨List.mem_range'_1.2 (by omega), ?_⟩, UInt32.ofNat_toNat⟩
      exact decide_eq_true (List.mem_map_of_mem hx)

/-- The migration of a version 1 file, with any page count and any acyclic chain, is safe if and only
if the length of every maximal run of the chain is a power of two that some class has. -/
theorem migration_safe_iff (image : V1Image file count chain) {capacity : Nat}
    (h : capacity < 2 ^ 32) :
    MigratesSafely file count chain capacity h ↔
      ∀ start len, IsMaximalRun (marked chain) start len → IsSlab len := by
  constructor
  · rintro ⟨p, hopen, hpool, -⟩ start len hrun
    by_contra hslab
    obtain ⟨hin, hout⟩ := image.exists_live_in_pool hopen hrun hslab
    exact hout (hpool.mem_iff.1 hin)
  · intro hslab
    obtain ⟨p, hopen, hpool⟩ := image.exists_opened h hslab
    obtain ⟨-, -, hcount, hfile⟩ := image.opened hopen
    refine ⟨p, hopen, hpool, fun pages q hrun => ?_⟩
    obtain ⟨g, hdrawn⟩ := hrun.drawn
    obtain ⟨hnodup, hmem⟩ := hdrawn.safe (hpool.nodup_iff.2 image.acyclic) fun x hx => by
      rw [hcount]
      exact (image.mem (hpool.mem_iff.1 hx)).2
    refine ⟨hnodup, fun x hx => ?_⟩
    have hgrown : q.file.length - file.length = g := by
      rw [hdrawn.file, hfile]
      exact Nat.add_sub_cancel_left _ _
    rw [hgrown, ← hcount]
    rcases hmem x hx with hx | ⟨hnew, hle⟩
    · exact Or.inl (hpool.mem_iff.1 hx)
    · exact Or.inr ⟨hle, hnew⟩

end

/-! ## Small files -/

/-- Page 0 of a version 1 file. -/
def v1Header (count head : PageId) : RawPage :=
  RawPage.ofBytes (leBytes 4 magic.toNat ++ leBytes 2 1 ++ [0, 0] ++ leBytes 4 count.toNat ++
    leBytes 4 head.toNat)

/-- A free page of a version 1 file. -/
def v1Link (next : PageId) : RawPage := RawPage.ofBytes (leBytes 4 next.toNat)

/-- Pages 1 to 3 are free, and page 4 is in use. -/
def threeFree : Image := [v1Header 5 1, v1Link 2, v1Link 3, v1Link invalidPage, RawPage.zero]

theorem v1Image_threeFree : V1Image threeFree 5 [1, 2, 3] := by
  refine ⟨⟨v1Header 5 1, rfl, by decide, by decide, by decide, ?_⟩, by decide, by decide, by decide⟩
  rw [show UInt32.ofNat ((v1Header 5 1).field 12 4) = 1 by decide]
  refine .link (by decide) (by decide) (show threeFree[1]? = some (v1Link 2) from rfl) ?_
  rw [show chainNext (v1Link 2) = 2 by decide]
  refine .link (by decide) (by decide) (show threeFree[2]? = some (v1Link 3) from rfl) ?_
  rw [show chainNext (v1Link 3) = 3 by decide]
  refine .link (by decide) (by decide) (show threeFree[3]? = some (v1Link invalidPage) from rfl) ?_
  rw [show chainNext (v1Link invalidPage) = invalidPage by decide]
  exact .done (Or.inr (by decide))

theorem migration_safe_iff_three :
    MigratesSafely threeFree 5 [1, 2, 3] 16 (by decide) ↔
      ∀ start len, IsMaximalRun (marked [1, 2, 3]) start len → IsSlab len :=
  migration_safe_iff v1Image_threeFree (by decide)

/-- The run of three pages is parked with page 4, and the first allocation returns page 4. -/
theorem live_page_handed_out : V1Image threeFree 5 [1, 2, 3] ∧
    (∃ p q, openFile.run (unloaded threeFree 16 (by decide)) = .ok () p ∧
      allocatePage.run p = .ok 4 q) ∧
    ¬ MigratesSafely threeFree 5 [1, 2, 3] 16 (by decide) := by
  have hfirst : (openFile >>= fun _ => allocatePage).run' (unloaded threeFree 16 (by decide)) =
      some 4 := by
    decide
  obtain ⟨q, hrun⟩ := exists_run_of_run' hfirst
  obtain ⟨⟨⟩, p, hopen, hcall⟩ := run_bind_eq_ok.1 hrun
  refine ⟨v1Image_threeFree, ⟨p, q, hopen, hcall⟩, ?_⟩
  rintro ⟨p', hopen', -, hsafe⟩
  rw [hopen] at hopen'
  cases hopen'
  have hids : p.allocator.pool = [] → p.IdsLast := by
    obtain ⟨-, -, hcount, -⟩ := v1Image_threeFree.opened hopen
    intro _ _
    rw [hcount]
    decide
  rcases (hsafe _ _ (.returns hids hcall (.nil q))).2 4 List.mem_cons_self with h | h
  · exact absurd h (by decide)
  · exact absurd h.1 (by decide)

end Pager

end OpenDB
