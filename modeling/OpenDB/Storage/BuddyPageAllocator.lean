import OpenDB.Types.Decoder
import Mathlib.Data.List.Nodup
import Mathlib.Data.Nat.Log
import Mathlib.Data.List.Perm.Basic

/-!
# The buddy page allocator

Free runs of pages, parked by slab class: class `k` holds runs of `2 ^ k` pages. Allocation pops the
last run of the first class that has one and splits it downward, keeping the upper half; freeing
pushes a run and merges it with its buddy as long as the buddy is parked in the same class.

`pool` lists the pages of all parked runs. Both operations are described by what they do to that
list, at the length of the class that a size is rounded up to: an allocation takes a run of that
class out of it (`pool_allocateRun`), a free puts one in (`pool_freeRun`). For single pages the class
has the size itself, so an allocation takes one page (`pool_allocatePages`) and happens whenever
there is one (`allocatePages_eq_none_iff`), and a free puts the page back (`pool_freePages`). None of
this needs the runs to be aligned.
-/

set_option autoImplicit false

namespace OpenDB

open OpenDB.Library

abbrev PageId := UInt32

/-- A parked run as the header page persists it. -/
structure FreeRun where
  start : PageId
  slabClass : UInt32
  deriving DecidableEq, Repr

/-- Allocator state: the parked runs of each class in vector order, and one bit for each page. -/
structure BuddyPageAllocator where
  freeBuddy : Nat → List PageId
  allocated : List Bool

namespace BuddyPageAllocator

/-- `MAX_CLASS`. -/
def maxClass : Nat := 8

/-- A new allocator. -/
def new : BuddyPageAllocator := ⟨fun _ => [], []⟩

/-- Least `k` with `n ≤ 2 ^ k`. -/
def classFor (n : Nat) : Nat := Nat.clog 2 n

def buddyOf (page : PageId) (k : Nat) : PageId := page ^^^ UInt32.ofNat (2 ^ k)

/-- `push_back` on class `k`. -/
def pushRun (fb : Nat → List PageId) (k : Nat) (start : PageId) : Nat → List PageId :=
  Function.update fb k (fb k ++ [start])

/-- Newly covered pages count as allocated. -/
def ensureBitmapSize (a : BuddyPageAllocator) (pageCount : Nat) : BuddyPageAllocator :=
  if a.allocated.length ≥ pageCount then a
  else { a with allocated := a.allocated ++ List.replicate (pageCount - a.allocated.length) true }

/-- Set the bits of `n` pages from `start`. -/
def markPages (bits : List Bool) (start : Nat) (value : Bool) : Nat → List Bool
  | 0 => bits
  | n + 1 => (markPages bits start value n).set (start + n) value

def onFileExtended (a : BuddyPageAllocator) (startPageId : PageId) (n : Nat) :
    BuddyPageAllocator :=
  let a := a.ensureBitmapSize (startPageId.toNat + n)
  { a with allocated := markPages a.allocated startPageId.toNat true n }

/-- First class from `target` on that has a parked run. -/
def firstClass (a : BuddyPageAllocator) (target : Nat) : Option Nat :=
  (List.range' target (maxClass + 1 - target)).find? fun k => !(a.freeBuddy k).isEmpty

/-- Split a run of class `target + d` down to class `target`: park the lower half, descend into the
upper one. -/
def splitDown (target : Nat) : Nat → (Nat → List PageId) → PageId →
    (Nat → List PageId) × PageId
  | 0, fb, start => (fb, start)
  | d + 1, fb, start =>
    splitDown target d (pushRun fb (target + d) start) (start + UInt32.ofNat (2 ^ (target + d)))

/-- `allocatePages` up to the point where the file has to be extended, which is `none`. -/
def allocatePages (a : BuddyPageAllocator) (n : Nat) : Option (PageId × BuddyPageAllocator) := do
  let target := classFor n
  let k ← a.firstClass target
  let start ← (a.freeBuddy k).getLast?
  let fb := Function.update a.freeBuddy k (a.freeBuddy k).dropLast
  let (fb, start) := splitDown target (k - target) fb start
  return (start, ⟨fb, markPages a.allocated start.toNat true n⟩)

/-- The coalescing loop, at most `fuel = maxClass - k` rounds. -/
def coalesce : Nat → (Nat → List PageId) → PageId → Nat → (Nat → List PageId)
  | 0, fb, _, _ => fb
  | fuel + 1, fb, curStart, k =>
    let buddyStart := buddyOf curStart k
    if buddyStart ∈ fb k then
      let run := (fb k).erase buddyStart
      if curStart ∈ run then
        let merged := if buddyStart < curStart then buddyStart else curStart
        coalesce fuel (pushRun (Function.update fb k (run.erase curStart)) (k + 1) merged) merged
          (k + 1)
      else Function.update fb k run
    else fb

/-- `freePages`. The class of an oversized run indexes past the class array. -/
def freePages (a : BuddyPageAllocator) (start : PageId) (n : Nat) :
    Except Fault BuddyPageAllocator :=
  if n = 0 ∨ a.allocated.length < start.toNat + n then throw .assertion
  else if maxClass < classFor n then throw .outOfBounds
  else
    let k := classFor n
    return ⟨coalesce (maxClass - k) (pushRun a.freeBuddy k start) start k,
      markPages a.allocated start.toNat false n⟩

def freePageCount (a : BuddyPageAllocator) : Nat :=
  ((List.range (maxClass + 1)).map fun k => (a.freeBuddy k).length * 2 ^ k).sum

def freeRunCount (a : BuddyPageAllocator) : Nat :=
  ((List.range (maxClass + 1)).map fun k => (a.freeBuddy k).length).sum

/-- Snapshot of the parked runs, class by class in vector order. -/
def saveFreeRuns (a : BuddyPageAllocator) : List FreeRun :=
  (List.range (maxClass + 1)).flatMap fun k =>
    (a.freeBuddy k).map fun start => ⟨start, UInt32.ofNat k⟩

/-- One run of a snapshot: out of range or overlapping runs are skipped, overhang is clipped. -/
def loadRun (pageCount : Nat) (a : BuddyPageAllocator) (r : FreeRun) : BuddyPageAllocator :=
  let k := r.slabClass.toNat
  if maxClass < k ∨ r.start = 0 ∨ pageCount ≤ r.start.toNat then a
  else
    let len := if pageCount < r.start.toNat + 2 ^ k then pageCount - r.start.toNat else 2 ^ k
    if (List.range len).any fun j => !(a.allocated.getD (r.start.toNat + j) true) then a
    else ⟨pushRun a.freeBuddy k r.start, markPages a.allocated r.start.toNat false len⟩

/-- `loadFreeRuns`. -/
def loadFreeRuns (a : BuddyPageAllocator) (runs : List FreeRun) (pageCount : Nat) :
    BuddyPageAllocator :=
  runs.foldl (loadRun pageCount)
    { a.ensureBitmapSize pageCount with freeBuddy := fun _ => [] }

/-- Largest class with a parked run, `0` if there is none. -/
def maxObservedClass (a : BuddyPageAllocator) : Nat :=
  (((List.range (maxClass + 1)).filter fun k => !(a.freeBuddy k).isEmpty).getLast?).getD 0

/-- The 16 diagnostic bytes of the header page. -/
def serializeHeader (a : BuddyPageAllocator) : Bytes :=
  List.replicate 8 0 ++ leBytes 2 a.maxObservedClass ++ leBytes 2 (min a.freeRunCount 65535) ++
    List.replicate 4 0

/-! ## The pool of free pages -/

/-- The pages of a run of class `k`. -/
def runPages (k : Nat) (start : PageId) : List PageId :=
  (List.range (2 ^ k)).map fun i => start + UInt32.ofNat i

/-- The pages of the runs parked in class `k`. -/
def classPages (fb : Nat → List PageId) (k : Nat) : List PageId := (fb k).flatMap (runPages k)

/-- The pages of all parked runs. -/
def poolOf (fb : Nat → List PageId) : List PageId :=
  (List.range (maxClass + 1)).flatMap (classPages fb)

def pool (a : BuddyPageAllocator) : List PageId := poolOf a.freeBuddy

theorem runPages_zero (start : PageId) : runPages 0 start = [start] := by
  simp [runPages]

/-- A run is its lower half followed by its upper half. -/
theorem runPages_succ (k : Nat) (start : PageId) :
    runPages (k + 1) start = runPages k start ++ runPages k (start + UInt32.ofNat (2 ^ k)) := by
  unfold runPages
  rw [pow_succ, mul_two, List.range_add, List.map_append, List.map_map]
  congr 1
  apply List.map_congr_left
  intro i _
  simp [UInt32.ofNat_add, UInt32.add_assoc]

/-- Replacing the runs of one class changes the pool by what it changes in that class. -/
theorem poolOf_update {fb : Nat → List PageId} {k : Nat} {runs : List PageId}
    {before after : List PageId} (hk : k ≤ maxClass)
    (h : (before ++ runs.flatMap (runPages k)).Perm (after ++ classPages fb k)) :
    (before ++ poolOf (Function.update fb k runs)).Perm (after ++ poolOf fb) := by
  obtain ⟨pre, post, hsplit⟩ := List.append_of_mem (List.mem_range.2 (Nat.lt_succ_of_le hk))
  have hnd : (pre ++ k :: post).Nodup := hsplit ▸ List.nodup_range
  have hpre : ∀ j ∈ pre, j ≠ k := by
    rintro j hj rfl
    rw [List.nodup_append] at hnd
    exact hnd.2.2 j hj j List.mem_cons_self rfl
  have hpost : ∀ j ∈ post, j ≠ k := by
    rintro j hj rfl
    rw [List.nodup_append, List.nodup_cons] at hnd
    exact hnd.2.1.1 hj
  have hother : ∀ ks : List Nat, (∀ j ∈ ks, j ≠ k) →
      ks.flatMap (classPages (Function.update fb k runs)) = ks.flatMap (classPages fb) := by
    intro ks hks
    apply List.flatMap_congr
    intro j hj
    simp [classPages, Function.update_of_ne (hks j hj)]
  have hself : classPages (Function.update fb k runs) k = runs.flatMap (runPages k) := by
    simp [classPages]
  unfold poolOf
  rw [hsplit, List.flatMap_append, List.flatMap_append, List.flatMap_cons, List.flatMap_cons,
    hother pre hpre, hother post hpost, hself]
  have hmove : ∀ x y : List PageId,
      (x ++ (pre.flatMap (classPages fb) ++ (y ++ post.flatMap (classPages fb)))).Perm
        (pre.flatMap (classPages fb) ++ ((x ++ y) ++ post.flatMap (classPages fb))) := by
    intro x y
    rw [← List.append_assoc, List.append_assoc x y]
    refine ((List.perm_append_comm).append_right _).trans ?_
    rw [List.append_assoc]
  refine (hmove _ _).trans (List.Perm.trans ?_ (hmove _ _).symm)
  exact List.Perm.append_left _ (h.append_right _)

/-- Runs that leave one class leave the pool. -/
theorem poolOf_removeRuns {fb : Nat → List PageId} {k : Nat} {runs before : List PageId}
    (hk : k ≤ maxClass) (h : (before ++ runs.flatMap (runPages k)).Perm (classPages fb k)) :
    (before ++ poolOf (Function.update fb k runs)).Perm (poolOf fb) := by
  have hpool := @poolOf_update fb k runs before [] hk (by rwa [List.nil_append])
  rwa [List.nil_append] at hpool

theorem poolOf_pushRun {fb : Nat → List PageId} {k : Nat} (hk : k ≤ maxClass) (start : PageId) :
    (poolOf (pushRun fb k start)).Perm (runPages k start ++ poolOf fb) := by
  have h : ([] ++ (fb k ++ [start]).flatMap (runPages k)).Perm
      (runPages k start ++ classPages fb k) := by
    simp only [List.nil_append, List.flatMap_append, List.flatMap_cons, List.flatMap_nil,
      List.append_nil, classPages]
    exact List.perm_append_comm
  have hpool := poolOf_update hk h
  rwa [List.nil_append] at hpool

/-- Splitting a run down to class `target` parks all of it but a run of that class. -/
theorem poolOf_splitDown (target : Nat) : ∀ (d : Nat) (fb : Nat → List PageId) (start : PageId),
    target + d ≤ maxClass + 1 →
    (runPages target (splitDown target d fb start).2 ++
      poolOf (splitDown target d fb start).1).Perm (runPages (target + d) start ++ poolOf fb) := by
  intro d
  induction d with
  | zero =>
    intro fb start _
    exact List.Perm.refl _
  | succ d ih =>
    intro fb start hd
    refine (ih _ _ (by omega)).trans ?_
    rw [← Nat.add_assoc, runPages_succ, List.append_assoc]
    refine (List.Perm.append_left _ (poolOf_pushRun (by omega) start)).trans ?_
    rw [← List.append_assoc, ← List.append_assoc]
    exact List.perm_append_comm.append_right _

theorem classFor_one : classFor 1 = 0 := Nat.clog_one_right 2

theorem firstClass_eq_some {a : BuddyPageAllocator} {target k : Nat}
    (h : a.firstClass target = some k) : target ≤ k ∧ k ≤ maxClass ∧ a.freeBuddy k ≠ [] := by
  have hmem := List.mem_of_find?_eq_some h
  have hp := List.find?_some h
  rw [List.mem_range'_1] at hmem
  refine ⟨hmem.1, by omega, ?_⟩
  simpa [List.isEmpty_iff] using hp

/-- An allocation takes a run of the class of its size out of the pool. -/
theorem pool_allocateRun {a a' : BuddyPageAllocator} {n : Nat} {p : PageId}
    (h : a.allocatePages n = some (p, a')) :
    a.pool.Perm (runPages (classFor n) p ++ a'.pool) := by
  simp only [allocatePages, Option.bind_eq_bind, Option.bind_eq_some_iff,
    Option.pure_def, Option.some.injEq, Prod.mk.injEq] at h
  obtain ⟨k, hk, start, hlast, rfl, rfl⟩ := h
  obtain ⟨htarget, hk8, -⟩ := firstClass_eq_some hk
  have hruns : a.freeBuddy k = (a.freeBuddy k).dropLast ++ [start] := by
    exact (List.dropLast_append_getLast? start hlast).symm
  have hpop : (runPages k start ++
      poolOf (Function.update a.freeBuddy k (a.freeBuddy k).dropLast)).Perm a.pool := by
    refine poolOf_removeRuns hk8 ?_
    unfold classPages
    nth_rewrite 2 [hruns]
    simp only [List.flatMap_append, List.flatMap_cons, List.flatMap_nil, List.append_nil]
    exact List.perm_append_comm
  have hsplit := poolOf_splitDown (classFor n) (k - classFor n)
    (Function.update a.freeBuddy k (a.freeBuddy k).dropLast) start (by omega)
  rw [Nat.add_sub_cancel' htarget] at hsplit
  exact (hsplit.trans hpop).symm

/-- A single-page allocation takes one page out of the pool. -/
theorem pool_allocatePages {a a' : BuddyPageAllocator} {p : PageId}
    (h : a.allocatePages 1 = some (p, a')) : a.pool.Perm (p :: a'.pool) := by
  have hperm := pool_allocateRun h
  rwa [classFor_one, runPages_zero] at hperm

/-- The file is extended only when no class from that of the size on has a run. -/
theorem allocatePages_eq_none_iff_classes (a : BuddyPageAllocator) (n : Nat) :
    a.allocatePages n = none ↔ ∀ k, classFor n ≤ k → k ≤ maxClass → a.freeBuddy k = [] := by
  constructor
  · intro h k hk hk8
    by_contra hne
    have hfirst : ∃ j, a.firstClass (classFor n) = some j := by
      rw [← Option.isSome_iff_exists, firstClass, List.find?_isSome]
      exact ⟨k, by simp [List.mem_range'_1]; omega, by simpa [List.isEmpty_iff] using hne⟩
    obtain ⟨j, hj⟩ := hfirst
    obtain ⟨-, -, hjne⟩ := firstClass_eq_some hj
    obtain ⟨start, hstart⟩ := Option.ne_none_iff_exists'.1
      (fun e => hjne (List.getLast?_eq_none_iff.1 e))
    simp [allocatePages, hj, hstart] at h
  · intro h
    have hfirst : a.firstClass (classFor n) = none := by
      rw [firstClass, List.find?_eq_none]
      intro k hk
      rw [List.mem_range'_1] at hk
      simp [h k (by omega) (by omega)]
    simp [allocatePages, hfirst]

theorem runPages_ne_nil (k : Nat) (start : PageId) : runPages k start ≠ [] := by
  simp [runPages]

theorem pool_eq_nil_iff (a : BuddyPageAllocator) :
    a.pool = [] ↔ ∀ k ≤ maxClass, a.freeBuddy k = [] := by
  simp only [pool, poolOf, classPages, List.flatMap_eq_nil_iff, List.mem_range]
  constructor
  · intro h k hk
    by_contra hne
    obtain ⟨s, hs⟩ := List.exists_mem_of_ne_nil _ hne
    exact runPages_ne_nil k s (h k (by omega) s hs)
  · intro h k hk s hs
    rw [h k (by omega)] at hs
    exact absurd hs (by simp)

/-- The file is extended only when no page is free. -/
theorem allocatePages_eq_none_iff (a : BuddyPageAllocator) :
    a.allocatePages 1 = none ↔ a.pool = [] := by
  rw [allocatePages_eq_none_iff_classes, pool_eq_nil_iff, classFor_one]
  exact ⟨fun h k hk => h k (Nat.zero_le k) hk, fun h k _ hk => h k hk⟩

theorem toNat_pow {k : Nat} (hk : k ≤ maxClass) : (UInt32.ofNat (2 ^ k)).toNat = 2 ^ k := by
  have hle : 2 ^ k ≤ 256 := Nat.pow_le_pow_right (Nat.le_succ 1) hk
  rw [UInt32.toNat_ofNat', Nat.mod_eq_of_lt (by omega)]

/-- Flipping bit `k` moves a number by `2 ^ k`. -/
theorem xor_two_pow (n k : Nat) :
    n ^^^ 2 ^ k = n + 2 ^ k ∨ n = (n ^^^ 2 ^ k) + 2 ^ k := by
  have hdiv : (n ^^^ 2 ^ k) / 2 ^ k = n / 2 ^ k ^^^ 1 := by
    rw [Nat.xor_div_two_pow, Nat.div_self (by positivity)]
  have hmod : (n ^^^ 2 ^ k) % 2 ^ k = n % 2 ^ k := by
    rw [Nat.xor_mod_two_pow, Nat.mod_self, Nat.xor_zero]
  have hq : ∀ q : Nat, q ^^^ 1 = q + 1 ∨ q = (q ^^^ 1) + 1 := by
    intro q
    have h2 : (q ^^^ 1) / 2 = q / 2 := by
      have := Nat.xor_div_two_pow (a := q) (b := 1) (n := 1)
      simpa using this
    have h1 : (q ^^^ 1) % 2 = 1 - q % 2 := by
      have hmod := @Nat.xor_mod_two_pow q 1 1
      rw [pow_one] at hmod
      rw [hmod]
      rcases Nat.mod_two_eq_zero_or_one q with h | h
      · rw [h]
        rfl
      · rw [h]
        rfl
    omega
  have hn := Nat.div_add_mod n (2 ^ k)
  have hx := Nat.div_add_mod (n ^^^ 2 ^ k) (2 ^ k)
  rw [hdiv, hmod] at hx
  rcases hq (n / 2 ^ k) with h | h
  · rw [h, Nat.mul_add, Nat.mul_one] at hx
    omega
  · rw [h, Nat.mul_add, Nat.mul_one] at hn
    omega

/-- No run is its own buddy. -/
theorem buddyOf_ne_self {k : Nat} (hk : k < maxClass) (start : PageId) :
    buddyOf start k ≠ start := by
  intro heq
  have hnat := congrArg UInt32.toNat heq
  rw [buddyOf, UInt32.toNat_xor, toNat_pow hk.le] at hnat
  have hpos := Nat.two_pow_pos k
  rcases xor_two_pow start.toNat k with h | h <;> omega

/-- A run and its buddy are the two halves of the merged run. -/
theorem runPages_buddy {k : Nat} (hk : k < maxClass) (start : PageId) :
    (runPages k (buddyOf start k) ++ runPages k start).Perm
      (runPages (k + 1) (if buddyOf start k < start then buddyOf start k else start)) := by
  have hnat : (buddyOf start k).toNat = start.toNat ^^^ 2 ^ k := by
    rw [buddyOf, UInt32.toNat_xor, toNat_pow hk.le]
  have hadd : ∀ x y : PageId, y.toNat = x.toNat + 2 ^ k → y = x + UInt32.ofNat (2 ^ k) := by
    intro x y hxy
    apply UInt32.toNat_inj.1
    have := y.toNat_lt
    rw [UInt32.toNat_add, toNat_pow hk.le, hxy]
    rw [Nat.mod_eq_of_lt (by omega)]
  rw [runPages_succ]
  rcases xor_two_pow start.toNat k with h | h
  · have hlt : ¬ buddyOf start k < start := by
      rw [UInt32.lt_iff_toNat_lt, hnat, h]
      exact Nat.not_lt.2 (Nat.le_add_right _ _)
    rw [if_neg hlt, ← hadd start (buddyOf start k) (by rw [hnat, h])]
    exact List.perm_append_comm
  · have hlt : buddyOf start k < start := by
      rw [UInt32.lt_iff_toNat_lt, hnat]
      have := Nat.two_pow_pos k
      omega
    rw [if_pos hlt, ← hadd (buddyOf start k) start (by rw [hnat]; exact h)]

theorem poolOf_coalesce : ∀ (fuel : Nat) (fb : Nat → List PageId) (curStart : PageId) (k : Nat),
    curStart ∈ fb k → buddyOf curStart k ≠ curStart ∨ fuel = 0 → k + fuel = maxClass →
    (poolOf (coalesce fuel fb curStart k)).Perm (poolOf fb) := by
  intro fuel
  induction fuel with
  | zero =>
    intro fb curStart k _ _ _
    exact List.Perm.refl _
  | succ fuel ih =>
    intro fb curStart k hcur hne hk
    have hne' : curStart ≠ buddyOf curStart k := fun e => (hne.resolve_right (by omega)) e.symm
    have hk8 : k < maxClass := by omega
    unfold coalesce
    by_cases hb : buddyOf curStart k ∈ fb k
    · have hcur' : curStart ∈ (fb k).erase (buddyOf curStart k) :=
        (List.mem_erase_of_ne hne').2 hcur
      rw [if_pos hb, if_pos hcur']
      set merged := if buddyOf curStart k < curStart then buddyOf curStart k else curStart
      set fb' := Function.update fb k (((fb k).erase (buddyOf curStart k)).erase curStart)
      refine (ih _ merged (k + 1) (by simp [pushRun]) ?_ (by omega)).trans ?_
      · by_cases hf : fuel = 0
        · exact Or.inr hf
        · exact Or.inl (buddyOf_ne_self (by omega) merged)
      · -- both halves leave class `k`, the merged run enters class `k + 1`
        refine (poolOf_pushRun (by omega) merged).trans ?_
        refine (List.Perm.append_right _ (runPages_buddy hk8 curStart).symm).trans ?_
        have herase : (runPages k (buddyOf curStart k) ++ runPages k curStart ++
            (((fb k).erase (buddyOf curStart k)).erase curStart).flatMap (runPages k)).Perm
              (classPages fb k) := by
          have h1 := (List.perm_cons_erase hb).flatMap_right (runPages k)
          have h2 := (List.perm_cons_erase hcur').flatMap_right (runPages k)
          rw [List.flatMap_cons] at h1 h2
          rw [List.append_assoc]
          exact ((List.Perm.append_left _ h2).symm.trans h1.symm)
        exact poolOf_removeRuns (by omega) herase
    · rw [if_neg hb]

/-- A free is possible for a run that the bitmap covers and that some class holds. -/
theorem freePages_eq_ok {a : BuddyPageAllocator} {start : PageId} {n : Nat} (hn : n ≠ 0)
    (hbits : start.toNat + n ≤ a.allocated.length) (hclass : classFor n ≤ maxClass) :
    a.freePages start n =
      .ok ⟨coalesce (maxClass - classFor n) (pushRun a.freeBuddy (classFor n) start) start
        (classFor n), markPages a.allocated start.toNat false n⟩ := by
  rw [freePages, if_neg (by omega), if_neg (by omega)]
  rfl

/-- Nothing else can be freed. -/
theorem of_freePages_eq_ok {a a' : BuddyPageAllocator} {start : PageId} {n : Nat}
    (h : a.freePages start n = .ok a') :
    n ≠ 0 ∧ start.toNat + n ≤ a.allocated.length ∧ classFor n ≤ maxClass := by
  unfold freePages at h
  split_ifs at h with hout hbig
  refine ⟨?_, ?_, ?_⟩ <;> omega

/-- A free puts a run of the class of its size into the pool. -/
theorem pool_freeRun {a a' : BuddyPageAllocator} {n : Nat} {p : PageId}
    (h : a.freePages p n = .ok a') : a'.pool.Perm (runPages (classFor n) p ++ a.pool) := by
  obtain ⟨hn, hbits, hclass⟩ := of_freePages_eq_ok h
  rw [freePages_eq_ok hn hbits hclass] at h
  cases h
  have hbuddy : buddyOf p (classFor n) ≠ p ∨ maxClass - classFor n = 0 := by
    by_cases hk : classFor n < maxClass
    · exact Or.inl (buddyOf_ne_self hk p)
    · exact Or.inr (by omega)
  refine (poolOf_coalesce _ _ p _ (by simp [pushRun]) hbuddy (by omega)).trans ?_
  exact poolOf_pushRun hclass p

/-- A single-page free puts the page back into the pool. -/
theorem pool_freePages {a a' : BuddyPageAllocator} {p : PageId}
    (h : a.freePages p 1 = .ok a') : a'.pool.Perm (p :: a.pool) := by
  have hperm := pool_freeRun h
  rwa [classFor_one, runPages_zero] at hperm

end BuddyPageAllocator

end OpenDB
