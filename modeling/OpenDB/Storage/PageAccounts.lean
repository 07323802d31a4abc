import OpenDB.Storage.HeaderPage

/-!
# Page accounts

Every page of a file but the header page is in use or free. `Owns` says that nothing is both;
`Accounted` adds that nothing is neither, by counting. Runs of page allocations and frees on a new
file keep both, and they keep the parked runs aligned to their class (`page_accounts`).
-/

set_option autoImplicit false

namespace OpenDB

namespace BuddyPageAllocator

/-! ## Alignment -/

/-- Every parked run starts at a multiple of its length. -/
def Aligned (fb : Nat → List PageId) : Prop :=
  ∀ k ≤ maxClass, ∀ start ∈ fb k, 2 ^ k ∣ start.toNat

theorem Aligned.update {fb : Nat → List PageId} (h : Aligned fb) {k : Nat} {runs : List PageId}
    (hruns : ∀ start ∈ runs, 2 ^ k ∣ start.toNat) : Aligned (Function.update fb k runs) := by
  intro j hj start hmem
  by_cases hjk : j = k
  · subst hjk
    rw [Function.update_self] at hmem
    exact hruns start hmem
  · rw [Function.update_of_ne hjk] at hmem
    exact h j hj start hmem

theorem Aligned.pushRun {fb : Nat → List PageId} (h : Aligned fb) {k : Nat} (hk : k ≤ maxClass)
    {start : PageId} (hstart : 2 ^ k ∣ start.toNat) :
    Aligned (BuddyPageAllocator.pushRun fb k start) := by
  apply h.update
  intro x hx
  rcases List.mem_append.1 hx with hx | hx
  · exact h k hk x hx
  · rw [List.mem_singleton.1 hx]
    exact hstart

theorem pow_dvd_page {k : Nat} (hk : k ≤ maxClass) : 2 ^ k ∣ 2 ^ 32 := by
  apply pow_dvd_pow
  unfold maxClass at hk
  omega

/-- The upper half of a run is aligned like the lower one. -/
theorem dvd_upper_half {k : Nat} (hk : k ≤ maxClass) {start : PageId} (h : 2 ^ k ∣ start.toNat) :
    2 ^ k ∣ (start + UInt32.ofNat (2 ^ k)).toNat := by
  rw [UInt32.toNat_add, toNat_pow hk, Nat.dvd_mod_iff (pow_dvd_page hk)]
  exact Nat.dvd_add h (dvd_refl _)

theorem Aligned.splitDown (target : Nat) : ∀ (d : Nat) (fb : Nat → List PageId) (start : PageId),
    target + d ≤ maxClass + 1 → Aligned fb → 2 ^ (target + d) ∣ start.toNat →
    Aligned (BuddyPageAllocator.splitDown target d fb start).1 := by
  intro d
  induction d with
  | zero =>
    intro fb start _ h _
    exact h
  | succ d ih =>
    intro fb start hd h hstart
    have hk : target + d ≤ maxClass := by omega
    have hhalf : 2 ^ (target + d) ∣ start.toNat := (pow_dvd_pow 2 (by omega)).trans hstart
    exact ih _ _ (by omega) (h.pushRun hk hhalf) (dvd_upper_half hk hhalf)

/-- Of a run and its buddy the lower one is aligned to the next class. -/
theorem dvd_merged {k : Nat} (hk : k < maxClass) {start : PageId} (h : 2 ^ k ∣ start.toNat) :
    2 ^ (k + 1) ∣
      (if buddyOf start k < start then buddyOf start k else start).toNat := by
  have hnat : (buddyOf start k).toNat = start.toNat ^^^ 2 ^ k := by
    rw [buddyOf, UInt32.toNat_xor, toNat_pow hk.le]
  -- the buddy differs in bit `k` only, and below that bit both are zero
  have hbuddy : 2 ^ k ∣ start.toNat ^^^ 2 ^ k := by
    apply Nat.dvd_of_mod_eq_zero
    rw [Nat.xor_mod_two_pow, Nat.mod_self, Nat.xor_zero]
    exact Nat.mod_eq_zero_of_dvd h
  have hpos := Nat.two_pow_pos k
  have hbit : ∀ n, 2 ^ k ∣ n → n ^^^ 2 ^ k = n + 2 ^ k → 2 ^ (k + 1) ∣ n := by
    rintro n ⟨q, hq⟩ hn
    have hdiv : (n ^^^ 2 ^ k) / 2 ^ k = n / 2 ^ k ^^^ 1 := by
      rw [Nat.xor_div_two_pow, Nat.div_self hpos]
    have hq' : n / 2 ^ k = q := by rw [hq, Nat.mul_div_cancel_left q hpos]
    rw [hn, Nat.add_div_right n hpos, hq'] at hdiv
    have heven : q % 2 = 0 := by
      rcases Nat.mod_two_eq_zero_or_one q with h | h
      · exact h
      · have hhigh := Nat.xor_div_two_pow (a := q) (b := 1) (n := 1)
        rw [← hdiv, pow_one, show (1 : Nat) / 2 = 0 from rfl, Nat.xor_zero] at hhigh
        omega
    obtain ⟨r, hr⟩ := Nat.dvd_of_mod_eq_zero heven
    exact ⟨r, by rw [hq, hr, pow_succ, Nat.mul_assoc]⟩
  rcases xor_two_pow start.toNat k with hup | hdown
  · have hlt : ¬ buddyOf start k < start := by
      rw [UInt32.lt_iff_toNat_lt, hnat, hup]
      omega
    rw [if_neg hlt]
    exact hbit _ h hup
  · have hlt : buddyOf start k < start := by
      rw [UInt32.lt_iff_toNat_lt, hnat]
      omega
    rw [if_pos hlt, hnat]
    apply hbit _ hbuddy
    rw [Nat.xor_assoc, Nat.xor_self, Nat.xor_zero]
    exact hdown

theorem Aligned.coalesce : ∀ (fuel : Nat) (fb : Nat → List PageId) (curStart : PageId) (k : Nat),
    k + fuel = maxClass → Aligned fb → 2 ^ k ∣ curStart.toNat →
    Aligned (BuddyPageAllocator.coalesce fuel fb curStart k) := by
  intro fuel
  induction fuel with
  | zero =>
    intro fb curStart k _ h _
    exact h
  | succ fuel ih =>
    intro fb curStart k hk h hcur
    have hclass := h k (by omega)
    unfold BuddyPageAllocator.coalesce
    by_cases hbuddy : buddyOf curStart k ∈ fb k
    swap
    · rw [if_neg hbuddy]
      exact h
    rw [if_pos hbuddy]
    by_cases hrun : curStart ∈ (fb k).erase (buddyOf curStart k)
    swap
    · rw [if_neg hrun]
      apply h.update
      intro x hx
      exact hclass x (List.mem_of_mem_erase hx)
    -- both halves leave class `k` and the merged run enters the next one
    rw [if_pos hrun]
    have hmerged := dvd_merged (show k < maxClass by omega) hcur
    apply ih _ _ (k + 1) (by omega) _ hmerged
    apply Aligned.pushRun _ (by omega) hmerged
    apply h.update
    intro x hx
    exact hclass x (List.mem_of_mem_erase (List.mem_of_mem_erase hx))

theorem Aligned.allocatePages {a a' : BuddyPageAllocator} {p : PageId} (h : Aligned a.freeBuddy)
    (hrun : a.allocatePages 1 = some (p, a')) : Aligned a'.freeBuddy := by
  simp only [BuddyPageAllocator.allocatePages, classFor_one, Option.bind_eq_bind,
    Option.bind_eq_some_iff, Option.pure_def, Option.some.injEq, Prod.mk.injEq] at hrun
  obtain ⟨k, hk, start, hlast, -, rfl⟩ := hrun
  obtain ⟨-, hk8, -⟩ := firstClass_eq_some hk
  have hclass := h k hk8
  apply Aligned.splitDown 0 (k - 0) _ start (by omega)
  · apply h.update
    intro x hx
    exact hclass x (List.mem_of_mem_dropLast hx)
  · rw [Nat.zero_add, Nat.sub_zero]
    exact hclass start (List.mem_of_getLast? hlast)

theorem Aligned.freePages {a a' : BuddyPageAllocator} {p : PageId} (h : Aligned a.freeBuddy)
    (hrun : a.freePages p 1 = .ok a') : Aligned a'.freeBuddy := by
  have hzero : ¬ maxClass < 0 := Nat.not_lt_zero _
  have hbounds : ¬ ((1 : Nat) = 0 ∨ a.allocated.length < p.toNat + 1) := by
    intro hout
    rw [BuddyPageAllocator.freePages, if_pos hout] at hrun
    cases hrun
  rw [BuddyPageAllocator.freePages, if_neg hbounds, classFor_one, if_neg hzero] at hrun
  cases hrun
  apply Aligned.coalesce maxClass _ p 0 rfl
  · exact h.pushRun (Nat.zero_le _) (one_dvd _)
  · exact one_dvd _

/-- `freePageCount` counts the pages of the pool. -/
theorem freePageCount_eq (a : BuddyPageAllocator) : a.freePageCount = a.pool.length := by
  have hclass : ∀ (k : Nat) (runs : List PageId),
      (runs.flatMap (runPages k)).length = runs.length * 2 ^ k := by
    intro k runs
    induction runs with
    | nil => exact (Nat.zero_mul _).symm
    | cons start runs ih =>
      rw [List.flatMap_cons, List.length_append, ih, List.length_cons, Nat.succ_mul, Nat.add_comm]
      congr 1
      rw [runPages, List.length_map, List.length_range]
  unfold freePageCount pool poolOf
  rw [List.length_flatMap]
  congr 1
  apply List.map_congr_left
  intro k _
  exact (hclass k _).symm

end BuddyPageAllocator

namespace Pager

/-! ## Pages in use and free pages -/

/-- With the header page, the pages in use and the free pages are all there are. -/
structure Accounted (p : Pager) (live : List PageId) : Prop where
  onFile : p.file.length = p.header.pageCount.toNat
  count : p.allocator.pool.length + live.length + 1 = p.header.pageCount.toNat

/-- A step that moves pages between the pool, the file and their users, and loses none. -/
theorem Accounted.step {p p' : Pager} {live live' touched : List PageId} (h : p.Accounted live)
    (hp : p.Backed) (hp' : p'.Backed) (hframe : p.Frame p' touched)
    (hroom : p'.room + live'.length = p.room + live.length) : p'.Accounted live' := by
  have hgap := hframe.gap
  have hcap := hframe.capacity
  have hdisk := hp.onDisk
  have hdisk' := hp'.onDisk
  have hfile := h.onFile
  have hcount := h.count
  unfold room at hroom
  constructor <;> omega

theorem Accounted.perm {p : Pager} {live live' : List PageId} (h : p.Accounted live)
    (hperm : live'.Perm live) : p.Accounted live' :=
  ⟨h.onFile, by rw [hperm.length_eq]; exact h.count⟩

/-- Every page but the header page is in use or free. -/
theorem Accounted.covers {p : Pager} {live : List PageId} (h : p.Accounted live) (hp : p.Owns live)
    {x : PageId} (hx : x ≠ 0) (hlt : x.toNat < p.header.pageCount.toNat) :
    x ∈ p.allocator.pool ++ live := by
  set numbers := (p.allocator.pool ++ live).map UInt32.toNat
  have hcount := h.count
  have hnodup : numbers.Nodup := hp.nodup.map fun a b hab => UInt32.toNat_inj.1 hab
  have hsub : numbers ⊆ List.range' 1 (p.header.pageCount.toNat - 1) := by
    intro n hn
    obtain ⟨y, hy, rfl⟩ := List.mem_map.1 hn
    obtain ⟨hne, hylt⟩ := hp.range y hy
    have hpos : y.toNat ≠ 0 := fun e => hne (UInt32.toNat_inj.1 e)
    rw [List.mem_range'_1]
    omega
  -- distinct numbers, as many as there are places for them
  have hlen : (List.range' 1 (p.header.pageCount.toNat - 1)).length ≤ numbers.length := by
    rw [List.length_range', List.length_map, List.length_append]
    omega
  have hperm := (hnodup.subperm hsub).perm_of_length_le hlen
  have hpos : x.toNat ≠ 0 := fun e => hx (UInt32.toNat_inj.1 e)
  have hmem : x.toNat ∈ numbers := by
    rw [hperm.mem_iff, List.mem_range'_1]
    omega
  obtain ⟨y, hy, heq⟩ := List.mem_map.1 hmem
  rw [← UInt32.toNat_inj.1 heq]
  exact hy

theorem accounted_new {capacity : Nat} (h : capacity < 2 ^ 32) : (new capacity h).Accounted [] :=
  ⟨rfl, rfl⟩

/-! ## Runs of allocations and frees -/

/-- The states of a new file under page allocations and frees of pages in use, with these pages. A
call that throws leaves its state behind as well. -/
inductive PageRun (capacity : Nat) (h : capacity < 2 ^ 32) : List PageId → Pager → Prop where
  | new {p : Pager} (hopen : openFile.run (unloaded [] capacity h) = .ok () p) :
      PageRun capacity h [] p
  | allocatePage {live : List PageId} {p p' : Pager} {x : PageId} (hrun : PageRun capacity h live p)
      (hcall : Pager.allocatePage.run p = .ok x p') : PageRun capacity h (x :: live) p'
  | allocateFails {live : List PageId} {p p' : Pager} {e : Fault} (hrun : PageRun capacity h live p)
      (hcall : Pager.allocatePage.run p = .error e p') : PageRun capacity h live p'
  | freePage {live : List PageId} {p p' : Pager} {x : PageId} (hrun : PageRun capacity h live p)
      (hlive : x ∈ live) (hcall : (Pager.freePage x).run p = .ok () p') :
      PageRun capacity h (live.erase x) p'
  | freeFails {live : List PageId} {p p' : Pager} {x : PageId} {e : Fault}
      (hrun : PageRun capacity h live p) (hlive : x ∈ live)
      (hcall : (Pager.freePage x).run p = .error e p') : PageRun capacity h live p'

/-- What every state of such a run satisfies. -/
structure Kept (p : Pager) (live : List PageId) : Prop where
  owns : p.Owns live
  accounted : p.Accounted live
  aligned : BuddyPageAllocator.Aligned p.allocator.freeBuddy

theorem aligned_allocatePage {p p' : Pager} {x : PageId} (hp : p.Backed)
    (h : BuddyPageAllocator.Aligned p.allocator.freeBuddy)
    (hrun : allocatePage.run p = .ok x p') :
    BuddyPageAllocator.Aligned p'.allocator.freeBuddy := by
  rcases allocatePage_cases hp with ⟨y, a, ha, hrun'⟩ | ⟨-, -, hrun'⟩ | ⟨-, -, hrun'⟩
  · rw [hrun'] at hrun
    cases hrun
    exact h.allocatePages ha
  · rw [hrun'] at hrun
    cases hrun
    show BuddyPageAllocator.Aligned (p.allocator.onFileExtended p.header.pageCount 1).freeBuddy
    rw [freeBuddy_onFileExtended]
    exact h
  · rw [hrun'] at hrun
    cases hrun

theorem Kept.allocatePage {p p' : Pager} {live : List PageId} {x : PageId} (h : p.Kept live)
    (hrun : allocatePage.run p = .ok x p') : p'.Kept (x :: live) := by
  obtain ⟨howns, hframe, hroom⟩ := allocatePage_ok h.owns hrun
  refine ⟨howns, ?_, aligned_allocatePage h.owns.backed h.aligned hrun⟩
  apply h.accounted.step h.owns.backed howns.backed hframe
  rw [List.length_cons]
  omega

theorem Kept.freePage {p : Pager} {live : List PageId} {x : PageId} (h : p.Kept live)
    (hlive : x ∈ live) : ∃ p', (freePage x).run p = .ok () p' ∧ p'.Kept (live.erase x) := by
  have hperm := List.perm_cons_erase hlive
  have howns := h.owns.perm hperm.symm
  obtain ⟨p', hrun, howns', hframe, hpool, hfile⟩ := freePage_ok howns
  refine ⟨p', hrun, howns', ?_, ?_⟩
  · apply (h.accounted.perm hperm.symm).step h.owns.backed howns'.backed hframe
    have hlen := hpool.length_eq
    rw [List.length_cons] at hlen
    rw [List.length_cons, room, room, hfile, hframe.capacity]
    omega
  · change Pager.freePage x p = _ at hrun
    unfold Pager.freePage at hrun
    split_ifs at hrun with hout
    · cases hrun
      exact h.aligned
    · cases ha : p.allocator.freePages x 1 with
      | ok a =>
        rw [ha] at hrun
        cases hrun
        exact h.aligned.freePages ha
      | error e =>
        rw [ha] at hrun
        cases hrun

theorem PageRun.kept {capacity : Nat} {hcap : capacity < 2 ^ 32} (hpos : 0 < capacity)
    {live : List PageId} {p : Pager} (h : PageRun capacity hcap live p) : p.Kept live := by
  induction h with
  | new hopen =>
    rw [run_openFile_nil] at hopen
    cases hopen
    refine ⟨owns_new hcap hpos, accounted_new hcap, ?_⟩
    intro k _ start hstart
    exact absurd hstart List.not_mem_nil
  | allocatePage hrun hcall ih => exact ih.allocatePage hcall
  | allocateFails hrun hcall ih =>
    obtain ⟨rfl, -⟩ := allocatePage_error ih.owns.backed hcall
    exact ih
  | freePage hrun hlive hcall ih =>
    obtain ⟨p', hfree, hkept⟩ := ih.freePage hlive
    rw [hfree] at hcall
    cases hcall
    exact hkept
  | freeFails hrun hlive hcall ih =>
    obtain ⟨p', hfree, -⟩ := ih.freePage hlive
    rw [hfree] at hcall
    cases hcall

theorem ne_zero_iff (x : PageId) : x ≠ 0 ↔ 1 ≤ x.toNat := by
  rw [Nat.one_le_iff_ne_zero, ne_eq, ne_eq, ← UInt32.toNat_inj, UInt32.toNat_zero]

theorem slabClass_saveFreeRuns {a : BuddyPageAllocator} {r : FreeRun} (h : r ∈ a.saveFreeRuns) :
    r.slabClass.toNat ≤ BuddyPageAllocator.maxClass ∧ r.start ∈ a.freeBuddy r.slabClass.toNat := by
  obtain ⟨k, hk, hr⟩ := List.mem_flatMap.1 h
  obtain ⟨start, hstart, rfl⟩ := List.mem_map.1 hr
  rw [List.mem_range, BuddyPageAllocator.maxClass] at hk
  have hclass : (UInt32.ofNat k).toNat = k := by
    rw [UInt32.toNat_ofNat', Nat.mod_eq_of_lt (by omega)]
  dsimp only
  rw [hclass, BuddyPageAllocator.maxClass]
  exact ⟨by omega, hstart⟩

/-- On a disk that has no page at all nothing is ever allocated. -/
theorem PageRun.eq_new {hcap : 0 < 2 ^ 32} {live : List PageId} {p : Pager}
    (h : PageRun 0 hcap live p) : live = [] ∧ p = Pager.new 0 hcap := by
  have halloc : Pager.allocatePage.run (Pager.new 0 hcap) =
      .error extendFailed (Pager.new 0 hcap) :=
    run_allocatePage_full rfl (Nat.not_lt_zero _)
  induction h with
  | new hopen =>
    rw [run_openFile_nil] at hopen
    cases hopen
    exact ⟨rfl, rfl⟩
  | allocatePage hrun hcall ih =>
    obtain ⟨rfl, rfl⟩ := ih
    rw [halloc] at hcall
    cases hcall
  | allocateFails hrun hcall ih =>
    obtain ⟨rfl, rfl⟩ := ih
    rw [halloc] at hcall
    cases hcall
    exact ⟨rfl, rfl⟩
  | freePage hrun hlive hcall ih =>
    obtain ⟨rfl, rfl⟩ := ih
    exact absurd hlive List.not_mem_nil
  | freeFails hrun hlive hcall ih =>
    obtain ⟨rfl, rfl⟩ := ih
    exact absurd hlive List.not_mem_nil

end Pager

end OpenDB
