import Mathlib.Data.List.Basic
import Mathlib.Tactic.Common

/-!
# Maximal runs

The maximal runs of consecutive numbers that a test accepts. Two of them with a number in common are
the same (`IsMaximalRun.unique`), so a list of maximal runs that covers the accepted numbers of a
range has all of them that start there (`mem_of_cover`).
-/

set_option autoImplicit false

namespace OpenDB.Library

/-- `len` numbers from `start` on are accepted, and the numbers next to them are not. -/
structure IsMaximalRun (b : Nat → Bool) (start len : Nat) : Prop where
  pos : 0 < len
  inside : ∀ i, start ≤ i → i < start + len → b i = true
  before : start = 0 ∨ b (start - 1) = false
  behind : b (start + len) = false

namespace IsMaximalRun

variable {b : Nat → Bool} {start len start' len' : Nat}

/-- Of two runs with a number in common neither starts before the other. -/
theorem start_le (h : IsMaximalRun b start len) (h' : IsMaximalRun b start' len') {i : Nat}
    (hi : i < start + len) (hi' : start' ≤ i) : start' ≤ start := by
  by_contra hlt
  have hin := h.inside (start' - 1) (by omega) (by omega)
  rcases h'.before with hzero | hout
  · omega
  · rw [hin] at hout
    cases hout

theorem end_le (h : IsMaximalRun b start len) (h' : IsMaximalRun b start' len') {i : Nat}
    (hi : start ≤ i) (hi' : i < start' + len') : start + len ≤ start' + len' := by
  by_contra hlt
  have hin := h.inside (start' + len') (by omega) (by omega)
  rw [h'.behind] at hin
  cases hin

theorem unique (h : IsMaximalRun b start len) (h' : IsMaximalRun b start' len') {i : Nat}
    (hi : start ≤ i ∧ i < start + len) (hi' : start' ≤ i ∧ i < start' + len') :
    (start', len') = (start, len) := by
  have hstart := h.start_le h' hi.2 hi'.1
  have hstart' := h'.start_le h hi'.2 hi.1
  have hend := h.end_le h' hi.1 hi'.2
  have hend' := h'.end_le h hi'.1 hi.2
  rw [Prod.mk.injEq]
  omega

end IsMaximalRun

/-- The numbers of a list of runs, given by start and length. -/
def covered (runs : List (Nat × Nat)) : List Nat := runs.flatMap fun r => List.range' r.1 r.2

theorem mem_of_cover {b : Nat → Bool} {runs : List (Nat × Nat)} {numbers : List Nat}
    (hmax : ∀ r ∈ runs, IsMaximalRun b r.1 r.2) (hcover : covered runs = numbers.filter b)
    {start len : Nat} (h : IsMaximalRun b start len) (hstart : start ∈ numbers) :
    (start, len) ∈ runs := by
  have hfirst : start ∈ covered runs := by
    rw [hcover, List.mem_filter]
    have hpos := h.pos
    exact ⟨hstart, h.inside start (Nat.le_refl _) (by omega)⟩
  obtain ⟨r, hr, hin⟩ := List.mem_flatMap.1 hfirst
  have hpos := h.pos
  have heq := h.unique (hmax r hr) ⟨Nat.le_refl _, by omega⟩ (List.mem_range'_1.1 hin)
  rw [← heq]
  exact hr

end OpenDB.Library
