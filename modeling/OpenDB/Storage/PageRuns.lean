import OpenDB.Library.Trace
import OpenDB.Storage.FreeRunSnapshot

/-!
# Runs of several pages

`allocatePages` and `freePages` for runs of any length. The allocator rounds a length up to a power
of two on both sides, and hands out and marks only the pages that were asked for. So a run whose
length is no power of two is parked with pages behind it that were never freed, and one that is taken
out of the pool leaves pages behind that nobody gets.

`Ledger` keeps the books of the callers: the runs they have, and the pages they have freed and that
have not been handed out since. The books agree with the allocator in every state of a run of calls
if and only if no call makes it round up (`agrees_iff_never_rounds_up`).
-/

set_option autoImplicit false

namespace OpenDB

open OpenDB.Library BuddyPageAllocator

/-! ## Lengths -/

/-- The lengths that the allocator keeps exactly. -/
def IsSlab (n : Nat) : Prop := classFor n ≤ maxClass ∧ n = 2 ^ classFor n

instance (n : Nat) : Decidable (IsSlab n) := inferInstanceAs (Decidable (_ ∧ _))

theorem le_two_pow_classFor (n : Nat) : n ≤ 2 ^ classFor n := Nat.le_pow_clog Nat.one_lt_two n

/-- They are the powers of two up to the largest class. -/
theorem isSlab_iff (n : Nat) : IsSlab n ↔ ∃ k ≤ maxClass, n = 2 ^ k := by
  constructor
  · rintro ⟨hclass, hn⟩
    exact ⟨classFor n, hclass, hn⟩
  · rintro ⟨k, hk, rfl⟩
    have hclass : classFor (2 ^ k) = k := Nat.clog_pow 2 k Nat.one_lt_two
    exact ⟨by rw [hclass]; exact hk, by rw [hclass]⟩

/-- What is taken out of the pool has a class. -/
theorem classFor_le_of_allocatePages {a a' : BuddyPageAllocator} {n : Nat} {start : PageId}
    (h : a.allocatePages n = some (start, a')) : classFor n ≤ maxClass := by
  simp only [allocatePages, Option.bind_eq_bind, Option.bind_eq_some_iff] at h
  obtain ⟨k, hk, -⟩ := h
  obtain ⟨htarget, hk8, -⟩ := firstClass_eq_some hk
  exact htarget.trans hk8

/-- A length is served from the pool when some class has a run that is long enough. -/
theorem isSome_firstClass_iff (a : BuddyPageAllocator) (n : Nat) :
    (a.firstClass (classFor n)).isSome = true ↔ a.allocatePages n ≠ none := by
  cases hk : a.firstClass (classFor n) with
  | none => simp [allocatePages, hk]
  | some k =>
    obtain ⟨start, hstart⟩ := Option.ne_none_iff_exists'.1 fun e =>
      (firstClass_eq_some hk).2.2 (List.getLast?_eq_none_iff.1 e)
    simp [allocatePages, hk, hstart]

namespace Pager

/-- A run of the class of a length is the run of that length and what rounding up adds. -/
theorem runPages_classFor (start : PageId) (n : Nat) :
    runPages (classFor n) start =
      pagesFrom start n ++ pagesFrom (start + UInt32.ofNat n) (2 ^ classFor n - n) := by
  rw [← pagesFrom_add, Nat.add_sub_cancel' (le_two_pow_classFor n)]
  rfl

/-- Pages below a page count have their numbers in a row. -/
theorem le_of_forall_lt {start count : PageId} {n : Nat} (hn : n ≠ 0)
    (h : ∀ x ∈ pagesFrom start n, x.toNat < count.toNat) : start.toNat + n ≤ count.toNat := by
  have hstart : start.toNat < count.toNat :=
    h start (List.mem_map.2 ⟨0, List.mem_range.2 (Nat.pos_of_ne_zero hn), by simp⟩)
  by_contra hout
  exact absurd (h count (mem_pagesFrom_of_lt hstart (by omega))) (lt_irrefl _)

/-! ## Extending the file by several pages -/

/-- The pager with `m` pages more, before its header is flushed. -/
def appended (p : Pager) (m : Nat) : Pager :=
  { p with
    file := p.file ++ List.replicate m RawPage.zero
    header := { p.header with pageCount := p.header.pageCount + UInt32.ofNat m } }

theorem appended_zero (p : Pager) : p.appended 0 = p := by
  cases p
  simp [appended]

theorem appended_grown (p : Pager) (m : Nat) : p.grown.appended m = p.appended (m + 1) := by
  have hcount : p.header.pageCount + 1 + UInt32.ofNat m =
      p.header.pageCount + UInt32.ofNat (m + 1) := by
    rw [Nat.add_comm m 1, UInt32.ofNat_add, UInt32.add_assoc]
    rfl
  simp only [appended, grown, hcount, List.append_assoc, List.singleton_append,
    ← List.replicate_succ]

/-- Appending pages fills the disk at most; what has been appended stays when it throws. -/
theorem run_appendPages (n : Nat) (p : Pager) :
    (appendPages n).run p =
      if n ≤ p.capacity - p.file.length then .ok () (p.appended n)
      else .error extendFailed (p.appended (p.capacity - p.file.length)) := by
  induction n generalizing p with
  | zero =>
    rw [if_pos (Nat.zero_le _), appended_zero]
    rfl
  | succ n ih =>
    rw [appendPages, EStateM.run_bind]
    by_cases hroom : p.file.length < p.capacity
    · -- one page fits, and the rest goes on behind it
      have hpage : appendPage.run p = .ok () p.grown := if_pos hroom
      have hleft : p.grown.capacity - p.grown.file.length + 1 = p.capacity - p.file.length := by
        have hlen : p.grown.file.length = p.file.length + 1 := by simp [grown]
        have hcap : p.grown.capacity = p.capacity := rfl
        omega
      rw [hpage]
      dsimp only
      rw [ih, appended_grown, appended_grown, hleft]
      by_cases hn : n ≤ p.grown.capacity - p.grown.file.length
      · rw [if_pos hn, if_pos (by omega)]
      · rw [if_neg hn, if_neg (by omega)]
    · have hpage : appendPage.run p = .error extendFailed p := if_neg hroom
      have hnone : p.capacity - p.file.length = 0 := by omega
      rw [hpage, hnone, if_neg (by omega), appended_zero]

/-- The pager after `extendFile n`. -/
def extendedBy (p : Pager) (n : Nat) : Pager :=
  { (p.appended n).writeHeader with
    allocator := p.allocator.onFileExtended p.header.pageCount n }

theorem toNat_pageCount_appended {p : Pager} {n : Nat}
    (hids : p.header.pageCount.toNat + n < 2 ^ 32) :
    (p.appended n).header.pageCount.toNat = p.header.pageCount.toNat + n := by
  show (p.header.pageCount + UInt32.ofNat n).toNat = _
  rw [UInt32.toNat_add, UInt32.toNat_ofNat', Nat.mod_eq_of_lt (by omega : n < _),
    Nat.mod_eq_of_lt hids]

theorem pool_extendedBy (p : Pager) (n : Nat) : (p.extendedBy n).allocator.pool = p.allocator.pool := by
  rw [BuddyPageAllocator.pool, BuddyPageAllocator.pool]
  exact congrArg BuddyPageAllocator.poolOf (freeBuddy_onFileExtended _ _ _)

theorem length_extendedBy {p : Pager} {n : Nat} (hpos : 0 < p.file.length + n) :
    (p.extendedBy n).file.length = p.file.length + n := by
  have hlen : (p.file ++ List.replicate n RawPage.zero).length = p.file.length + n := by
    rw [List.length_append, List.length_replicate]
  show (Image.write (p.file ++ List.replicate n RawPage.zero) 0 _).length = _
  rw [length_write (by omega), hlen]

theorem run_extendFile {p : Pager} {n : Nat} (hn : n ≠ 0) (hpos : 0 < p.header.pageCount.toNat)
    (hfile : p.header.pageCount.toNat ≤ p.file.length) :
    (extendFile n).run p =
      if n ≤ p.capacity - p.file.length then .ok p.header.pageCount (p.extendedBy n)
      else .error extendFailed (p.appended (p.capacity - p.file.length)) := by
  rw [extendFile, if_neg hn, EStateM.run_bind, EStateM.run_get]
  dsimp only
  rw [EStateM.run_bind, run_appendPages]
  by_cases hroom : n ≤ p.capacity - p.file.length
  · have hids : p.header.pageCount.toNat + n < 2 ^ 32 := by
      have := p.capacity_lt
      omega
    have hcount := toNat_pageCount_appended hids
    rw [if_pos hroom, if_pos hroom]
    dsimp only
    rw [EStateM.run_bind, run_flushHeader (by omega)]
    rfl
  · rw [if_neg hroom, if_neg hroom]

/-- Everything `allocatePages` can do with the file behind it: hand out a run of the pool, extend the
file, or fill the disk and throw. -/
theorem allocatePages_cases {p : Pager} {n : Nat} (hn : n ≠ 0) (hpos : 0 < p.header.pageCount.toNat)
    (hfile : p.header.pageCount.toNat ≤ p.file.length) :
    (∃ start a, p.allocator.allocatePages n = some (start, a) ∧
      (allocatePages n).run p = .ok (pagesFrom start n) { p with allocator := a }) ∨
    (p.allocator.allocatePages n = none ∧ n ≤ p.capacity - p.file.length ∧
      (allocatePages n).run p = .ok (pagesFrom p.header.pageCount n) (p.extendedBy n)) ∨
    (p.allocator.allocatePages n = none ∧ ¬ n ≤ p.capacity - p.file.length ∧
      (allocatePages n).run p =
        .error extendFailed (p.appended (p.capacity - p.file.length))) := by
  cases ha : p.allocator.allocatePages n with
  | some r =>
    obtain ⟨start, a⟩ := r
    refine Or.inl ⟨start, a, rfl, ?_⟩
    simp [allocatePages, hn, ha]
  | none =>
    have hrun : (allocatePages n).run p =
        ((do return pagesFrom (← extendFile n) n) : EStateM Fault Pager (List PageId)).run p := by
      simp only [allocatePages, hn, if_false, EStateM.run_bind, EStateM.run_get, ha]
    by_cases hroom : n ≤ p.capacity - p.file.length
    · refine Or.inr (Or.inl ⟨rfl, hroom, ?_⟩)
      rw [hrun, EStateM.run_bind, run_extendFile hn hpos hfile, if_pos hroom]
      rfl
    · refine Or.inr (Or.inr ⟨rfl, hroom, ?_⟩)
      rw [hrun, EStateM.run_bind, run_extendFile hn hpos hfile, if_neg hroom]

end Pager

/-! ## The books of the callers -/

/-- A pager, the runs that its callers have, and the pages that they have freed and that have not
been handed out since. A failed assertion or undefined behaviour is the end of it. -/
structure Ledger where
  pager : Pager
  live : List (List PageId)
  freed : List PageId
  fault : Option Fault

/-- A call: a run of some length is wanted, or one is given back. -/
inductive RunCall where
  | allocatePages (n : Nat)
  | freePages (run : List PageId)

namespace Ledger

/-- A new file. -/
def new (capacity : Nat) (h : capacity < 2 ^ 32) : Ledger := ⟨Pager.new capacity h, [], [], none⟩

/-- What a call that throws, or goes wrong altogether, leaves. -/
def failed (s : Ledger) (e : Fault) (p : Pager) : Ledger :=
  { s with pager := p, fault := if e.isThrown then none else some e }

/-- A call: runs have one page at least, and callers give back whole runs that they have. -/
def next (s : Ledger) : RunCall → Option Ledger
  | .allocatePages n =>
    if n = 0 ∨ s.fault ≠ none then none
    else
      match (Pager.allocatePages n).run s.pager with
      | .ok run p => some ⟨p, run :: s.live, s.freed.filter fun x => x ∉ run, none⟩
      | .error e p => some (s.failed e p)
  | .freePages run =>
    if run ∉ s.live ∨ s.fault ≠ none then none
    else
      match (Pager.freePages (run.headD 0) run.length).run s.pager with
      | .ok _ p => some ⟨p, s.live.erase run, run ++ s.freed, none⟩
      | .error e p => some (s.failed e p)

/-- The books agree with the allocator: the runs of the callers have no page in common and are on
file, and the pages that have been freed are counted once. -/
structure Agrees (s : Ledger) : Prop where
  running : s.fault = none
  disjoint : s.live.flatten.Nodup
  onFile : ∀ x ∈ s.live.flatten, x.toNat < s.pager.header.pageCount.toNat
  counted : s.pager.allocator.freePageCount = s.freed.length

/-- A call that makes the allocator round up: a run is given back, or taken out of the pool, whose
length is not the length of a class. -/
def RoundsUp (s : Ledger) : RunCall → Prop
  | .allocatePages n =>
    ¬ IsSlab n ∧ (s.pager.allocator.firstClass (classFor n)).isSome = true
  | .freePages run => ¬ IsSlab run.length

/-- What keeps the books in agreement: no page is both free and in use, or either of them twice, and
what is free is what has been freed. -/
structure Kept (s : Ledger) : Prop where
  running : s.fault = none
  pos : 0 < s.pager.header.pageCount.toNat
  onFile : s.pager.header.pageCount.toNat ≤ s.pager.file.length
  nodup : (s.pager.allocator.pool ++ s.live.flatten).Nodup
  range : ∀ x ∈ s.pager.allocator.pool ++ s.live.flatten,
    x ≠ 0 ∧ x.toNat < s.pager.header.pageCount.toNat
  bitmap : ∀ x ∈ s.pager.allocator.pool ++ s.live.flatten,
    x.toNat < s.pager.allocator.allocated.length
  freed : s.freed.Perm s.pager.allocator.pool
  runs : ∀ run ∈ s.live, ∃ start n, n ≠ 0 ∧ run = Pager.pagesFrom start n

theorem kept_new (capacity : Nat) (h : capacity < 2 ^ 32) : (new capacity h).Kept :=
  ⟨rfl, Nat.one_pos, le_refl 1, List.nodup_nil, fun _ hx => absurd hx List.not_mem_nil,
    fun _ hx => absurd hx List.not_mem_nil, List.Perm.refl _, fun _ hx => absurd hx List.not_mem_nil⟩

theorem Kept.agrees {s : Ledger} (h : s.Kept) : s.Agrees where
  running := h.running
  disjoint := (List.nodup_append.1 h.nodup).2.1
  onFile := fun x hx => (h.range x (List.mem_append_right _ hx)).2
  counted := by rw [freePageCount_eq, h.freed.length_eq]

/-- Removing the pages of a part of a list of distinct pages leaves the rest. -/
theorem filter_not_mem_append {l part rest : List PageId} (h : l.Perm (part ++ rest))
    (hnodup : l.Nodup) : (l.filter fun x => x ∉ part).Perm rest := by
  have hall := h.nodup_iff.1 hnodup
  have hapart := (List.nodup_append.1 hall).2.2
  refine (h.filter _).trans ?_
  rw [List.filter_append, List.filter_eq_nil_iff.2 (fun x hx => by simpa using hx), List.nil_append,
    List.filter_eq_self.2]
  intro x hx
  exact decide_eq_true fun hp => hapart x hp x hx rfl

/-- Taking a run out of the pool: what rounding up adds is lost to the pool and not handed out. -/
theorem Kept.takeRun {s : Ledger} {n : Nat} {start : PageId} {a : BuddyPageAllocator} (h : s.Kept)
    (hn : n ≠ 0) (ha : s.pager.allocator.allocatePages n = some (start, a)) {s' : Ledger}
    (hs' : s' = ⟨{ s.pager with allocator := a }, Pager.pagesFrom start n :: s.live,
      s.freed.filter fun x => x ∉ Pager.pagesFrom start n, none⟩) :
    (IsSlab n → s'.Kept) ∧ (s'.Agrees → IsSlab n) := by
  subst hs'
  have hclass : classFor n ≤ maxClass := classFor_le_of_allocatePages ha
  have hpool := pool_allocateRun ha
  rw [Pager.runPages_classFor, List.append_assoc] at hpool
  have hnodup : s.pager.allocator.pool.Nodup := (List.nodup_append.1 h.nodup).1
  have hfreed := filter_not_mem_append (h.freed.trans hpool) (h.freed.nodup_iff.2 hnodup)
  constructor
  · rintro ⟨-, hexact⟩
    rw [← hexact, Nat.sub_self, Pager.pagesFrom_zero, List.nil_append] at hpool hfreed
    -- the run moves from the pool to the runs in use
    have hall : (s.pager.allocator.pool ++ s.live.flatten).Perm
        (a.pool ++ (Pager.pagesFrom start n ++ s.live.flatten)) := by
      refine (hpool.append_right _).trans ?_
      rw [← List.append_assoc]
      exact List.perm_append_comm.append_right _
    refine ⟨rfl, h.pos, h.onFile, hall.nodup_iff.1 h.nodup, fun x hx => ?_, fun x hx => ?_, hfreed,
      fun run hrun => ?_⟩
    · exact h.range x (hall.mem_iff.2 hx)
    · show x.toNat < a.allocated.length
      rw [Pager.length_allocated_allocatePages ha]
      exact h.bitmap x (hall.mem_iff.2 hx)
    · rcases List.mem_cons.1 hrun with rfl | hrun
      · exact ⟨start, n, hn, rfl⟩
      · exact h.runs run hrun
  · rintro ⟨-, -, -, hcounted⟩
    change a.freePageCount = _ at hcounted
    rw [freePageCount_eq, hfreed.length_eq, List.length_append, Pager.length_pagesFrom] at hcounted
    have hle := le_two_pow_classFor n
    exact ⟨hclass, by omega⟩

theorem Kept.extend {s : Ledger} {n : Nat} (h : s.Kept) (hn : n ≠ 0)
    (hroom : n ≤ s.pager.capacity - s.pager.file.length) :
    Kept ⟨s.pager.extendedBy n, Pager.pagesFrom s.pager.header.pageCount n :: s.live,
      s.freed.filter fun x => x ∉ Pager.pagesFrom s.pager.header.pageCount n, none⟩ := by
  have hpos := h.pos
  have hfile := h.onFile
  have hids : s.pager.header.pageCount.toNat + n < 2 ^ 32 := by
    have := s.pager.capacity_lt
    omega
  have hcount : (s.pager.extendedBy n).header.pageCount.toNat =
      s.pager.header.pageCount.toNat + n := Pager.toNat_pageCount_appended hids
  have hnew := Pager.map_toNat_pagesFrom hids.le
  have hbehind : ∀ x ∈ Pager.pagesFrom s.pager.header.pageCount n,
      s.pager.header.pageCount.toNat ≤ x.toNat ∧ x.toNat < s.pager.header.pageCount.toNat + n := by
    intro x hx
    rw [← List.mem_range'_1, ← hnew]
    exact List.mem_map_of_mem hx
  -- the new pages lie behind all that are counted, where none is pooled or in use
  have hapart : ∀ x ∈ s.pager.allocator.pool ++ s.live.flatten,
      x ∉ Pager.pagesFrom s.pager.header.pageCount n := by
    intro x hx hmem
    have h₁ := (h.range x hx).2
    have h₂ := (hbehind x hmem).1
    omega
  have hall : (s.pager.allocator.pool ++ (Pager.pagesFrom s.pager.header.pageCount n ++
      s.live.flatten)).Perm (Pager.pagesFrom s.pager.header.pageCount n ++
        (s.pager.allocator.pool ++ s.live.flatten)) := by
    rw [← List.append_assoc, ← List.append_assoc]
    exact List.perm_append_comm.append_right _
  have hpool := Pager.pool_extendedBy s.pager n
  have hbits := Pager.le_length_allocated_onFileExtended s.pager.allocator
    s.pager.header.pageCount n
  refine ⟨rfl, ?_, ?_, ?_, fun x hx => ?_, fun x hx => ?_, ?_, fun run hrun => ?_⟩
  · rw [hcount]
    omega
  · rw [hcount, Pager.length_extendedBy (by omega)]
    omega
  · rw [hpool]
    refine hall.nodup_iff.2 (List.nodup_append.2 ⟨?_, h.nodup, ?_⟩)
    · apply List.Nodup.of_map UInt32.toNat
      rw [hnew]
      exact List.nodup_range'
    · rintro x hx y hy rfl
      exact hapart x hy hx
  · rw [hpool] at hx
    rw [hcount]
    rcases List.mem_append.1 (hall.subset hx) with hx | hx
    · have := hbehind x hx
      exact ⟨(Pager.ne_zero_iff x).2 (by omega), this.2⟩
    · have := h.range x hx
      exact ⟨this.1, by omega⟩
  · rw [hpool] at hx
    show x.toNat < (s.pager.allocator.onFileExtended _ n).allocated.length
    rcases List.mem_append.1 (hall.subset hx) with hx | hx
    · have := (hbehind x hx).2
      omega
    · have := h.bitmap x hx
      omega
  · rw [hpool, List.filter_eq_self.2]
    · exact h.freed
    · intro x hx
      exact decide_eq_true (hapart x (List.mem_append_left _ (h.freed.subset hx)))
  · rcases List.mem_cons.1 hrun with rfl | hrun
    · exact ⟨_, n, hn, rfl⟩
    · exact h.runs run hrun

/-- A full disk: the pages that have been appended are nobody's. -/
theorem Kept.fillDisk {s : Ledger} (h : s.Kept) :
    (s.failed Pager.extendFailed
      (s.pager.appended (s.pager.capacity - s.pager.file.length))).Kept := by
  have hfile := h.onFile
  have hids : s.pager.header.pageCount.toNat + (s.pager.capacity - s.pager.file.length) <
      2 ^ 32 := by
    have h₁ := s.pager.capacity_lt
    have h₂ := s.pager.header.pageCount.toNat_lt
    omega
  have hcount := Pager.toNat_pageCount_appended hids
  refine ⟨rfl, ?_, ?_, h.nodup, fun x hx => ?_, h.bitmap, h.freed, h.runs⟩
  · show 0 < (Pager.appended _ _).header.pageCount.toNat
    have := h.pos
    omega
  · show (Pager.appended _ _).header.pageCount.toNat ≤ (Pager.appended _ _).file.length
    rw [hcount, Pager.appended, List.length_append, List.length_replicate]
    omega
  · show x ≠ 0 ∧ x.toNat < (Pager.appended _ _).header.pageCount.toNat
    have := h.range x hx
    exact ⟨this.1, by omega⟩

/-- The pages of a run in use have their numbers in a row, on file and in the bitmap. -/
theorem Kept.run_bounds {s : Ledger} {start : PageId} {n : Nat} (h : s.Kept) (hn : n ≠ 0)
    (hlive : Pager.pagesFrom start n ∈ s.live) :
    start ≠ 0 ∧ start.toNat + n ≤ s.pager.header.pageCount.toNat ∧
      start.toNat + n ≤ s.pager.allocator.allocated.length := by
  have hmem : ∀ x ∈ Pager.pagesFrom start n, x ∈ s.pager.allocator.pool ++ s.live.flatten :=
    fun x hx => List.mem_append_right _ (List.mem_flatten.2 ⟨_, hlive, hx⟩)
  have hstart : start ∈ Pager.pagesFrom start n :=
    List.mem_map.2 ⟨0, List.mem_range.2 (Nat.pos_of_ne_zero hn), by simp⟩
  have hcount := Pager.le_of_forall_lt hn fun x hx => (h.range x (hmem x hx)).2
  have hids := s.pager.header.pageCount.toNat_lt
  have hnum := Pager.map_toNat_pagesFrom (show start.toNat + n ≤ 2 ^ 32 by omega)
  have hlast : start.toNat + (n - 1) ∈ (Pager.pagesFrom start n).map UInt32.toNat := by
    rw [hnum, List.mem_range'_1]
    omega
  obtain ⟨x, hx, hxlast⟩ := List.mem_map.1 hlast
  have hbit := h.bitmap x (hmem x hx)
  exact ⟨(h.range start (hmem start hstart)).1, hcount, by omega⟩

theorem headD_pagesFrom {start : PageId} {n : Nat} (hn : n ≠ 0) :
    (Pager.pagesFrom start n).headD 0 = start := by
  obtain ⟨m, rfl⟩ := Nat.exists_eq_succ_of_ne_zero hn
  rw [Pager.pagesFrom_succ]
  rfl

/-- Giving a run back: its pages go into the pool, with those that rounding up adds. A run too long
for any class is undefined behaviour. -/
theorem Kept.giveBack {s s' : Ledger} {run : List PageId} (h : s.Kept)
    (hnext : s.next (.freePages run) = some s') :
    (IsSlab run.length → s'.Kept) ∧ (s'.Agrees → IsSlab run.length) := by
  rw [next] at hnext
  split_ifs at hnext with hno
  rw [not_or, not_not] at hno
  obtain ⟨start, n, hn, rfl⟩ := h.runs run hno.1
  obtain ⟨hstart, hcount, hbits⟩ := h.run_bounds hn hno.1
  have hperm := List.perm_cons_erase hno.1
  rw [headD_pagesFrom hn, Pager.length_pagesFrom, Pager.run_freePages hstart hn hcount] at hnext
  rw [Pager.length_pagesFrom]
  by_cases hclass : classFor n ≤ maxClass
  · have hok := freePages_eq_ok hn hbits hclass
    have hpool := pool_freeRun hok
    rw [hok] at hnext
    dsimp only at hnext
    cases hnext
    rw [Pager.runPages_classFor, List.append_assoc] at hpool
    constructor
    · rintro ⟨-, hexact⟩
      rw [← hexact, Nat.sub_self, Pager.pagesFrom_zero, List.nil_append] at hpool
      -- the run moves from the runs in use to the pool
      have hall : (s.pager.allocator.pool ++ s.live.flatten).Perm
          ((Pager.pagesFrom start n ++ s.pager.allocator.pool) ++
            (s.live.erase (Pager.pagesFrom start n)).flatten) := by
        refine (List.Perm.append_left _ hperm.flatten).trans ?_
        rw [List.flatten_cons, ← List.append_assoc]
        exact List.perm_append_comm.append_right _
      have hmove := hall.trans (hpool.symm.append_right _)
      refine ⟨rfl, h.pos, h.onFile, hmove.nodup_iff.1 h.nodup, fun x hx => ?_, fun x hx => ?_, ?_,
        fun run hrun => h.runs run (List.mem_of_mem_erase hrun)⟩
      · exact h.range x (hmove.mem_iff.2 hx)
      · rw [Pager.length_markPages]
        exact h.bitmap x (hmove.mem_iff.2 hx)
      · exact (List.Perm.append_left _ h.freed).trans hpool.symm
    · rintro ⟨-, -, -, hcounted⟩
      dsimp only at hcounted
      rw [freePageCount_eq, hpool.length_eq, List.length_append, List.length_append,
        List.length_append, Pager.length_pagesFrom, Pager.length_pagesFrom,
        h.freed.length_eq] at hcounted
      have hle := le_two_pow_classFor n
      exact ⟨hclass, by omega⟩
  · -- past the array of classes
    have hfault : s.pager.allocator.freePages start n = .error .outOfBounds := by
      rw [BuddyPageAllocator.freePages, if_neg (by omega), if_pos (not_le.1 hclass)]
      rfl
    rw [hfault] at hnext
    cases hnext
    constructor
    · exact fun hslab => absurd hslab.1 hclass
    · rintro ⟨hrunning, -⟩
      cases hrunning

/-- What one call does to books that are kept: they stay in agreement unless it rounds up. -/
theorem Kept.step {s s' : Ledger} {c : RunCall} (h : s.Kept) (hnext : s.next c = some s') :
    (¬ s.RoundsUp c → s'.Kept) ∧ (s'.Agrees → ¬ s.RoundsUp c) := by
  cases c with
  | freePages run =>
    obtain ⟨hkept, hslab⟩ := h.giveBack hnext
    exact ⟨fun hround => hkept (not_not.1 hround), fun hagree => not_not.2 (hslab hagree)⟩
  | allocatePages n =>
    rw [next] at hnext
    split_ifs at hnext with hno
    rw [not_or, not_not] at hno
    rcases Pager.allocatePages_cases hno.1 h.pos h.onFile with
      ⟨start, a, ha, hrun⟩ | ⟨hnone, hroom, hrun⟩ | ⟨hnone, -, hrun⟩
    · rw [hrun] at hnext
      dsimp only at hnext
      obtain ⟨hkept, hslab⟩ := h.takeRun hno.1 ha (Option.some.inj hnext).symm
      have hserved : (s.pager.allocator.firstClass (classFor n)).isSome = true := by
        rw [isSome_firstClass_iff, ha]
        exact Option.some_ne_none _
      refine ⟨fun hround => hkept ?_, fun hagree hround => hround.1 (hslab hagree)⟩
      by_contra hn
      exact hround ⟨hn, hserved⟩
    · rw [hrun] at hnext
      cases hnext
      refine ⟨fun _ => h.extend hno.1 hroom, fun _ hround => ?_⟩
      exact (isSome_firstClass_iff _ _).1 hround.2 hnone
    · rw [hrun] at hnext
      cases hnext
      refine ⟨fun _ => h.fillDisk, fun _ hround => ?_⟩
      exact (isSome_firstClass_iff _ _).1 hround.2 hnone

/-- In every run of calls on a new file the books agree with the allocator, in every state, if and
only if no call makes it round up. -/
theorem agrees_iff_never_rounds_up {capacity : Nat} {h : capacity < 2 ^ 32}
    {trace : List (Ledger × RunCall)} {s : Ledger}
    (hrun : Run next (new capacity h) trace s) :
    ((∀ p ∈ trace, p.1.Agrees) ∧ s.Agrees) ↔ ∀ p ∈ trace, ¬ p.1.RoundsUp p.2 := by
  apply Run.forall_iff (I := fun s => s.Agrees → s.Kept) _ (kept_new capacity h).agrees _ hrun
  · exact fun _ => kept_new capacity h
  · intro s c s' hkept hagree hnext
    obtain ⟨hgood, hbad⟩ := (hkept hagree).step hnext
    exact ⟨fun hagree' => hgood (hbad hagree'), hbad, fun hround => (hgood hround).agrees⟩

theorem agrees_iff_never_rounds_up_four_pages : ∃ trace s,
    Run next (new 16 (by decide)) trace s ∧
    trace.map Prod.snd = [.allocatePages 4, .freePages [1, 2, 3, 4], .allocatePages 2] ∧
    (((∀ p ∈ trace, p.1.Agrees) ∧ s.Agrees) ↔ ∀ p ∈ trace, ¬ p.1.RoundsUp p.2) := by
  obtain ⟨s, hs⟩ := Option.isSome_iff_exists.1 (show (follow next
    [.allocatePages 4, .freePages [1, 2, 3, 4], .allocatePages 2]
    (new 16 (by decide))).2.isSome = true by decide)
  exact ⟨_, s, Run.of_follow hs, rfl, agrees_iff_never_rounds_up (Run.of_follow hs)⟩

/-- Three pages are given back and the page behind them is in use: it is handed out again. -/
theorem page_in_use_handed_out : ∃ trace s, Run next (new 16 (by decide)) trace s ∧
    trace.map Prod.snd =
      [.allocatePages 3, .allocatePages 1, .freePages [1, 2, 3], .allocatePages 1] ∧
    s.live = [[4], [4]] ∧ ¬ s.Agrees := by
  have hlive : (follow next
      [.allocatePages 3, .allocatePages 1, .freePages [1, 2, 3], .allocatePages 1]
      (new 16 (by decide))).2.map Ledger.live = some [[4], [4]] := by
    decide
  obtain ⟨s, hs, hsame⟩ := Option.map_eq_some_iff.1 hlive
  refine ⟨_, s, Run.of_follow hs, rfl, hsame, fun hagree => ?_⟩
  have hdisjoint := hagree.disjoint
  rw [hsame] at hdisjoint
  exact absurd hdisjoint (by decide)

end Ledger

end OpenDB
