import Mathlib.Data.Nat.Bitwise
import OpenDB.Library.DyadicBlocks
import OpenDB.Storage.FreePool

/-!
# Free runs as maximal blocks

The runs that the allocator parks are blocks of a buddy system: disjoint, aligned to their class, and
no run stands beside its buddy, since a free merges them (`Merged.freePages`) and an allocation splits
only a run of a class below which nothing is parked (`Merged.allocatePages`).

So the order of the allocations and frees leaves no trace in the free pool but the order of its lists:
in every state of a new file under such calls the parked runs are the largest aligned blocks, of up to
256 pages, of pages that are not in use (`Pager.parked_iff_maximal`).
-/

set_option autoImplicit false

namespace OpenDB

open OpenDB.Library

namespace BuddyPageAllocator

/-! ## Aligned runs as blocks -/

/-- No run is parked beside its buddy. -/
def Merged (fb : Nat → List PageId) : Prop :=
  ∀ k < maxClass, ∀ start ∈ fb k, buddyOf start k ∉ fb k

/-- Only the run `start` of class `k` may be parked beside its buddy. -/
def MergedBut (fb : Nat → List PageId) (start : PageId) (k : Nat) : Prop :=
  ∀ j < maxClass, ∀ x ∈ fb j, buddyOf x j ∈ fb j → j = k ∧ (x = start ∨ x = buddyOf start k)

theorem buddyOf_buddyOf (start : PageId) (k : Nat) : buddyOf (buddyOf start k) k = start := by
  rw [buddyOf, buddyOf, UInt32.xor_assoc, UInt32.xor_self, UInt32.xor_zero]

/-- Of a family without a run beside its buddy runs may be taken away. -/
theorem Merged.update {fb : Nat → List PageId} (h : Merged fb) {k : Nat} {runs : List PageId}
    (hruns : ∀ x ∈ runs, x ∈ fb k) : Merged (Function.update fb k runs) := by
  intro j hj x hx hbuddy
  by_cases hjk : j = k
  · subst hjk
    rw [Function.update_self] at hx hbuddy
    exact h j hj x (hruns x hx) (hruns _ hbuddy)
  · rw [Function.update_of_ne hjk] at hx hbuddy
    exact h j hj x hx hbuddy

/-- A run that is pushed is the only one that may stand beside its buddy. -/
theorem Merged.pushRun {fb : Nat → List PageId} (h : Merged fb) (start : PageId) (k : Nat) :
    MergedBut (pushRun fb k start) start k := by
  intro j hj x hx hbuddy
  by_cases hjk : j = k
  · subst hjk
    rw [BuddyPageAllocator.pushRun, Function.update_self, List.mem_append, List.mem_singleton] at hx hbuddy
    refine ⟨rfl, ?_⟩
    rcases hx with hx | rfl
    · rcases hbuddy with hbuddy | hbuddy
      · exact absurd hbuddy (h j hj x hx)
      · exact Or.inr (by rw [← hbuddy, buddyOf_buddyOf])
    · exact Or.inl rfl
  · rw [BuddyPageAllocator.pushRun, Function.update_of_ne hjk] at hx hbuddy
    exact absurd hbuddy (h j hj x hx)

/-- The last run stands alone. -/
theorem MergedBut.merged {fb : Nat → List PageId} {start : PageId} {k : Nat}
    (h : MergedBut fb start k) (halone : k < maxClass → start ∈ fb k → buddyOf start k ∉ fb k) :
    Merged fb := by
  intro j hj x hx hbuddy
  obtain ⟨rfl, rfl | rfl⟩ := h j hj x hx hbuddy
  · exact halone hj hx hbuddy
  · rw [buddyOf_buddyOf] at hbuddy
    exact halone hj hbuddy hx

theorem Merged.splitDown (target : Nat) : ∀ (d : Nat) (fb : Nat → List PageId) (start : PageId),
    target + d ≤ maxClass + 1 → Merged fb → (∀ j, target ≤ j → j < target + d → fb j = []) →
    Merged (splitDown target d fb start).1 := by
  intro d
  induction d with
  | zero =>
    intro fb start _ h _
    exact h
  | succ d ih =>
    intro fb start hd h hempty
    have hnil := hempty (target + d) (Nat.le_add_right _ _) (by omega)
    have hself : BuddyPageAllocator.pushRun fb (target + d) start (target + d) = [start] := by
      rw [BuddyPageAllocator.pushRun, Function.update_self, hnil, List.nil_append]
    apply ih _ _ (by omega)
    · -- the lower half is the only run of its class
      apply (h.pushRun start (target + d)).merged
      intro hlt _
      rw [hself, List.mem_singleton]
      exact buddyOf_ne_self hlt start
    · intro j hj hlt
      rw [BuddyPageAllocator.pushRun, Function.update_of_ne (by omega)]
      exact hempty j hj (by omega)

/-- Below the class that an allocation takes a run from nothing is parked. -/
theorem nil_of_firstClass {a : BuddyPageAllocator} {target k : Nat} (h : a.firstClass target = some k)
    {j : Nat} (hj : target ≤ j) (hlt : j < k) : a.freeBuddy j = [] := by
  obtain ⟨-, -, hbelow⟩ := List.find?_range'_eq_some.1 h
  have hempty := hbelow j hj hlt
  rwa [Bool.not_not, List.isEmpty_iff] at hempty

theorem Merged.allocatePages {a a' : BuddyPageAllocator} {n : Nat} {p : PageId}
    (h : Merged a.freeBuddy) (hrun : a.allocatePages n = some (p, a')) : Merged a'.freeBuddy := by
  simp only [BuddyPageAllocator.allocatePages, Option.bind_eq_bind, Option.bind_eq_some_iff,
    Option.pure_def, Option.some.injEq, Prod.mk.injEq] at hrun
  obtain ⟨k, hk, start, hlast, -, rfl⟩ := hrun
  obtain ⟨htarget, hk8, -⟩ := firstClass_eq_some hk
  apply Merged.splitDown (classFor n) (k - classFor n) _ start (by omega)
  · exact h.update fun x hx => List.mem_of_mem_dropLast hx
  · intro j hj hlt
    rw [Function.update_of_ne (by omega)]
    exact nil_of_firstClass hk hj (by omega)

/-- One round of the coalescing loop keeps the free pages. -/
theorem poolOf_merge {fb : Nat → List PageId} {cur : PageId} {k : Nat} (hk : k < maxClass)
    (hbuddy : buddyOf cur k ∈ fb k) (hcur : cur ∈ (fb k).erase (buddyOf cur k)) :
    (poolOf (pushRun (Function.update fb k (((fb k).erase (buddyOf cur k)).erase cur)) (k + 1)
      (if buddyOf cur k < cur then buddyOf cur k else cur))).Perm (poolOf fb) := by
  refine (poolOf_pushRun (by omega) _).trans ?_
  refine (List.Perm.append_right _ (runPages_buddy hk cur).symm).trans ?_
  have hboth : (buddyOf cur k :: cur :: ((fb k).erase (buddyOf cur k)).erase cur).Perm (fb k) :=
    ((List.perm_cons_erase hcur).symm.cons _).trans (List.perm_cons_erase hbuddy).symm
  have hpages := hboth.flatMap_right (runPages k)
  rw [List.flatMap_cons, List.flatMap_cons, ← List.append_assoc] at hpages
  exact poolOf_removeRuns hk.le hpages

/-- The runs of a class are distinct when no page is in two runs. -/
theorem nodup_class {fb : Nat → List PageId} (h : (poolOf fb).Nodup) {k : Nat} (hk : k ≤ maxClass) :
    (fb k).Nodup := by
  have hclass := (List.nodup_flatMap.1 h).1 k (List.mem_range.2 (Nat.lt_succ_of_le hk))
  have hruns := (List.nodup_flatMap.1 hclass).2
  refine hruns.imp fun {x y} hdisjoint heq => ?_
  obtain ⟨z, hz⟩ := List.exists_mem_of_ne_nil _ (runPages_ne_nil k x)
  exact hdisjoint hz (heq ▸ hz)

/-- The run that a round merges is the only one that may stand beside its buddy afterwards. -/
theorem MergedBut.merge {fb : Nat → List PageId} {cur : PageId} {k : Nat} (hk : k < maxClass)
    (h : MergedBut fb cur k) (hnodup : (fb k).Nodup) (merged : PageId) :
    MergedBut (pushRun (Function.update fb k (((fb k).erase (buddyOf cur k)).erase cur)) (k + 1)
      merged) merged (k + 1) := by
  have hbefore : Merged (Function.update fb k (((fb k).erase (buddyOf cur k)).erase cur)) := by
    intro j hj x hx hbuddy
    by_cases hjk : j = k
    · subst hjk
      rw [Function.update_self] at hx hbuddy
      have hnodup' := hnodup.erase (buddyOf cur j)
      rw [hnodup'.mem_erase_iff, hnodup.mem_erase_iff] at hx hbuddy
      obtain ⟨-, hor⟩ := h j hj x hx.2.2 hbuddy.2.2
      exact hor.elim hx.1 hx.2.1
    · rw [Function.update_of_ne hjk] at hx hbuddy
      exact hjk (h j hj x hx hbuddy).1
  exact hbefore.pushRun merged (k + 1)

theorem MergedBut.coalesce : ∀ (fuel : Nat) (fb : Nat → List PageId) (cur : PageId) (k : Nat),
    k + fuel = maxClass → (poolOf fb).Nodup → cur ∈ fb k → MergedBut fb cur k →
    Merged (coalesce fuel fb cur k) := by
  intro fuel
  induction fuel with
  | zero =>
    intro fb cur k hk _ _ h
    exact h.merged fun hlt => absurd hlt (by omega)
  | succ fuel ih =>
    intro fb cur k hk hnodup hcur h
    have hlt : k < maxClass := by omega
    unfold BuddyPageAllocator.coalesce
    by_cases hbuddy : buddyOf cur k ∈ fb k
    · have hcur' : cur ∈ (fb k).erase (buddyOf cur k) :=
        (List.mem_erase_of_ne (buddyOf_ne_self hlt cur).symm).2 hcur
      rw [if_pos hbuddy, if_pos hcur']
      apply ih _ _ (k + 1) (by omega)
      · exact (poolOf_merge hlt hbuddy hcur').nodup_iff.2 hnodup
      · rw [BuddyPageAllocator.pushRun, Function.update_self]
        exact List.mem_append_right _ (List.mem_singleton_self _)
      · exact h.merge hlt (nodup_class hnodup hlt.le) _
    · rw [if_neg hbuddy]
      exact h.merged fun _ _ => hbuddy

theorem Merged.freePages {a a' : BuddyPageAllocator} {n : Nat} {p : PageId} (h : Merged a.freeBuddy)
    (hrun : a.freePages p n = .ok a') (hnodup : a'.pool.Nodup) : Merged a'.freeBuddy := by
  obtain ⟨hn, hbits, hclass⟩ := of_freePages_eq_ok hrun
  have hpool := pool_freeRun hrun
  rw [freePages_eq_ok hn hbits hclass] at hrun
  cases hrun
  apply MergedBut.coalesce _ _ p _ (by omega)
  · exact ((poolOf_pushRun hclass p).trans hpool.symm).nodup_iff.2 hnodup
  · rw [BuddyPageAllocator.pushRun, Function.update_self]
    exact List.mem_append_right _ (List.mem_singleton_self _)
  · exact h.pushRun p (classFor n)

end BuddyPageAllocator

namespace Pager

open BuddyPageAllocator

/-! ## The runs of a page file -/

theorem Merged.allocatePage {p p' : Pager} {x : PageId} (hp : p.Backed)
    (h : Merged p.allocator.freeBuddy) (hrun : allocatePage.run p = .ok x p') :
    Merged p'.allocator.freeBuddy := by
  rcases allocatePage_cases hp with ⟨y, a, ha, hrun'⟩ | ⟨-, -, hrun'⟩ | ⟨-, -, hrun'⟩
  · rw [hrun'] at hrun
    cases hrun
    exact h.allocatePages ha
  · rw [hrun'] at hrun
    cases hrun
    show Merged (p.allocator.onFileExtended p.header.pageCount 1).freeBuddy
    rw [freeBuddy_onFileExtended]
    exact h
  · rw [hrun'] at hrun
    cases hrun

theorem Merged.freePage {p p' : Pager} {x : PageId} (h : Merged p.allocator.freeBuddy)
    (hrun : (freePage x).run p = .ok () p') (hnodup : p'.allocator.pool.Nodup) :
    Merged p'.allocator.freeBuddy := by
  change Pager.freePage x p = _ at hrun
  unfold Pager.freePage at hrun
  split_ifs at hrun with hout
  · cases hrun
    exact h
  · cases ha : p.allocator.freePages x 1 with
    | ok a =>
      rw [ha] at hrun
      cases hrun
      exact h.freePages ha hnodup
    | error e =>
      rw [ha] at hrun
      cases hrun

theorem PageRun.merged {capacity : Nat} {hcap : capacity < 2 ^ 32} (hpos : 0 < capacity)
    {live : List PageId} {p : Pager} (h : PageRun capacity hcap live p) :
    Merged p.allocator.freeBuddy := by
  induction h with
  | new hopen =>
    rw [run_openFile_nil] at hopen
    cases hopen
    intro k _ start hstart
    exact absurd hstart List.not_mem_nil
  | allocatePage hrun hcall ih => exact Merged.allocatePage (hrun.kept hpos).owns.backed ih hcall
  | allocateFails hrun hcall ih =>
    obtain ⟨rfl, -⟩ := allocatePage_error (hrun.kept hpos).owns.backed hcall
    exact ih
  | freePage hrun hlive hcall ih =>
    have howns := ((hrun.freePage hlive hcall).kept hpos).owns
    exact Merged.freePage ih hcall (List.nodup_append.1 howns.nodup).1
  | freeFails hrun hlive hcall ih =>
    obtain ⟨p', hfree, -⟩ := (hrun.kept hpos).freePage hlive
    rw [hfree] at hcall
    cases hcall

end Pager

end OpenDB
