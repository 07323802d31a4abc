import Mathlib

/-!
# Version archives

A store that keeps every version of every key. A version is filed under its key, a number and its
writer: number 0 while the writer has only staged it, the number of the commit afterwards. A place that
is taken keeps its version, and a commit files the staged versions of its writer once more without
taking them away.

A reader with a horizon sees the committed versions up to the horizon and the versions it has staged
itself. It reads the version with the highest number, so a version that it has staged comes last, and
among the writers of one number the first in their order.
-/

set_option autoImplicit false

namespace OpenDB.Library

universe u v w

/-- What is filed under a key, a number and a writer. A version is a value, or `none` for a removal. -/
@[ext] structure VersionArchive (τ : Type u) (κ : Type v) (ν : Type w) where
  entry : κ → Nat → τ → Option (Option ν)

namespace VersionArchive

variable {τ : Type u} {κ : Type v} {ν : Type w}

def empty : VersionArchive τ κ ν := ⟨fun _ _ _ => none⟩

/-! ## Reading -/

/-- A reader with a horizon sees this number of this writer. -/
def Visible (horizon : Nat) (t : τ) (n : Nat) (u : τ) : Prop :=
  if n = 0 then u = t else n ≤ horizon

theorem visible_zero {horizon : Nat} {t u : τ} : Visible horizon t 0 u ↔ u = t := by
  simp [Visible]

theorem visible_of_pos {horizon n : Nat} {t u : τ} (hn : n ≠ 0) :
    Visible horizon t n u ↔ n ≤ horizon := by
  simp [Visible, hn]

section Reads

variable [LinearOrder τ]

/-- The reader stops at this version of the key. -/
structure Shows (A : VersionArchive τ κ ν) (horizon : Nat) (t : τ) (k : κ) (n : Nat) (u : τ)
    (value : Option ν) : Prop where
  filed : A.entry k n u = some value
  visible : Visible horizon t n u
  newest : ∀ m x, Visible horizon t m x → A.entry k m x ≠ none → m < n ∨ (m = n ∧ u ≤ x)

/-- No version of the key is visible. -/
def ShowsNothing (A : VersionArchive τ κ ν) (horizon : Nat) (t : τ) (k : κ) : Prop :=
  ∀ n u, Visible horizon t n u → A.entry k n u = none

/-- What the reader gets for the key. -/
def Reads (A : VersionArchive τ κ ν) (horizon : Nat) (t : τ) (k : κ) (value : Option ν) : Prop :=
  (∃ n u, A.Shows horizon t k n u value) ∨ (value = none ∧ A.ShowsNothing horizon t k)

variable {A B : VersionArchive τ κ ν} {horizon n : Nat} {t u : τ} {k l : κ} {value value' : Option ν}

theorem Shows.not_showsNothing (h : A.Shows horizon t k n u value) :
    ¬ A.ShowsNothing horizon t k := by
  intro hnone
  have hempty := hnone n u h.visible
  rw [h.filed] at hempty
  cases hempty

/-- A reader gets one value. -/
theorem Reads.unique (h : A.Reads horizon t k value) (h' : A.Reads horizon t k value') :
    value = value' := by
  rcases h with ⟨n, u, h⟩ | ⟨rfl, hnone⟩
  · rcases h' with ⟨m, x, h'⟩ | ⟨-, hnone⟩
    · have hm := h.newest m x h'.visible (by rw [h'.filed]; exact Option.some_ne_none _)
      have hn := h'.newest n u h.visible (by rw [h.filed]; exact Option.some_ne_none _)
      have hnum : m = n := by omega
      subst hnum
      have hux : u ≤ x := (hm.resolve_left (Nat.lt_irrefl _)).2
      have hxu : x ≤ u := (hn.resolve_left (Nat.lt_irrefl _)).2
      have heq : u = x := le_antisymm hux hxu
      have hfiled := h.filed
      rw [heq, h'.filed] at hfiled
      exact (Option.some.inj hfiled).symm
    · exact absurd hnone h.not_showsNothing
  · rcases h' with ⟨m, x, h'⟩ | ⟨rfl, -⟩
    · exact absurd hnone h'.not_showsNothing
    · rfl

/-- Archives with the same visible versions of a key are read alike. -/
theorem reads_congr (h : ∀ n u, Visible horizon t n u → A.entry k n u = B.entry k n u) :
    A.Reads horizon t k value ↔ B.Reads horizon t k value := by
  have himp : ∀ {A B : VersionArchive τ κ ν},
      (∀ n u, Visible horizon t n u → A.entry k n u = B.entry k n u) →
      A.Reads horizon t k value → B.Reads horizon t k value := by
    intro A B hsame hreads
    rcases hreads with ⟨n, u, hshows⟩ | ⟨rfl, hnone⟩
    · refine Or.inl ⟨n, u, ?_, hshows.visible, ?_⟩
      · rw [← hsame n u hshows.visible]
        exact hshows.filed
      · intro m x hvisible hne
        rw [← hsame m x hvisible] at hne
        exact hshows.newest m x hvisible hne
    · refine Or.inr ⟨rfl, ?_⟩
      intro n u hvisible
      rw [← hsame n u hvisible]
      exact hnone n u hvisible
  exact ⟨himp h, himp fun n u hvisible => (h n u hvisible).symm⟩

/-- So are archives with the same versions in front of a visible one. -/
theorem reads_congr_front (hvisible : Visible horizon t n u) (hne : A.entry k n u ≠ none)
    (h : ∀ m x, n < m ∨ (n = m ∧ x ≤ u) → A.entry k m x = B.entry k m x) :
    A.Reads horizon t k value ↔ B.Reads horizon t k value := by
  have himp : ∀ {A B : VersionArchive τ κ ν},
      (∀ m x, n < m ∨ (n = m ∧ x ≤ u) → A.entry k m x = B.entry k m x) →
      A.entry k n u ≠ none → A.Reads horizon t k value → B.Reads horizon t k value := by
    intro A B hsame hne hreads
    rcases hreads with ⟨m, x, hshows⟩ | ⟨rfl, hnone⟩
    · have hfront : n < m ∨ (n = m ∧ x ≤ u) := hshows.newest n u hvisible hne
      refine Or.inl ⟨m, x, ?_, hshows.visible, ?_⟩
      · rw [← hsame m x hfront]
        exact hshows.filed
      · intro i y hvis hentry
        by_cases hi : n < i ∨ (n = i ∧ y ≤ u)
        · rw [← hsame i y hi] at hentry
          exact hshows.newest i y hvis hentry
        · -- the version lies behind the visible one, and so behind what is shown
          rw [not_or, not_and, not_le] at hi
          by_cases heq : n = i
          · rcases hfront with hlt | ⟨rfl, hle⟩
            · exact Or.inl (by omega)
            · exact Or.inr ⟨heq.symm, hle.trans (hi.2 heq).le⟩
          · exact Or.inl (by omega)
    · exact absurd (hnone n u hvisible) hne
  have hself := h n u (Or.inr ⟨rfl, le_refl u⟩)
  exact ⟨himp h hne, himp (fun m x hm => (h m x hm).symm) (by rwa [← hself])⟩

/-- So are archives with the same versions from a visible one upwards. -/
theorem reads_congr_above (hvisible : Visible horizon t n u) (hne : A.entry k n u ≠ none)
    (h : ∀ m x, n ≤ m → A.entry k m x = B.entry k m x) :
    A.Reads horizon t k value ↔ B.Reads horizon t k value := by
  refine reads_congr_front hvisible hne fun m x hm => h m x ?_
  rcases hm with hlt | ⟨heq, -⟩
  · exact Nat.le_of_lt hlt
  · exact Nat.le_of_eq heq

end Reads

/-! ## Writing -/

section Writes

variable [DecidableEq τ] [DecidableEq κ]

/-- A version is filed unless its place is taken. -/
def file (k : κ) (n : Nat) (t : τ) (value : Option ν) (A : VersionArchive τ κ ν) :
    VersionArchive τ κ ν :=
  ⟨fun l m u => if l = k ∧ m = n ∧ u = t then some ((A.entry k n t).getD value) else A.entry l m u⟩

/-- A writer stages a value, or a removal. -/
def stage (t : τ) (k : κ) (value : Option ν) (A : VersionArchive τ κ ν) : VersionArchive τ κ ν :=
  A.file k 0 t value

variable {A : VersionArchive τ κ ν} {n m : Nat} {t u : τ} {k l : κ} {value : Option ν}

theorem file_of_taken (h : A.entry k n t ≠ none) : A.file k n t value = A := by
  obtain ⟨old, hold⟩ := Option.ne_none_iff_exists'.1 h
  ext l m u : 4
  show (if l = k ∧ m = n ∧ u = t then _ else _) = _
  split_ifs with hplace
  · obtain ⟨rfl, rfl, rfl⟩ := hplace
    rw [hold]
    rfl
  · rfl

theorem entry_file_self (h : A.entry k n t = none) : (A.file k n t value).entry k n t = some value := by
  show (if k = k ∧ n = n ∧ t = t then _ else _) = _
  rw [if_pos ⟨rfl, rfl, rfl⟩, h]
  rfl

theorem entry_file_of_ne (h : ¬ (l = k ∧ m = n ∧ u = t)) :
    (A.file k n t value).entry l m u = A.entry l m u :=
  if_neg h

/-- The first write of a key by a writer is the one that stays. -/
theorem stage_of_taken (h : A.entry k 0 t ≠ none) : A.stage t k value = A :=
  file_of_taken h

/-- What is filed stays. -/
theorem entry_file_of_some {old : Option ν} (h : A.entry l m u = some old) :
    (A.file k n t value).entry l m u = some old := by
  by_cases hplace : l = k ∧ m = n ∧ u = t
  · obtain ⟨rfl, rfl, rfl⟩ := hplace
    rw [file_of_taken (by rw [h]; exact Option.some_ne_none _), h]
  · rw [entry_file_of_ne hplace, h]

theorem entry_stage_of_pos (hm : m ≠ 0) : (A.stage t k value).entry l m u = A.entry l m u :=
  entry_file_of_ne fun h => hm h.2.1

end Writes

section Publish

variable [DecidableEq τ]

/-- The staged versions of a writer are filed under a number too. -/
def publish (t : τ) (n : Nat) (A : VersionArchive τ κ ν) : VersionArchive τ κ ν :=
  ⟨fun l m u => if m = n ∧ u = t then (A.entry l n t).or (A.entry l 0 t) else A.entry l m u⟩

variable {A : VersionArchive τ κ ν} {n m : Nat} {t u : τ} {l : κ}

theorem entry_publish_of_ne (h : ¬ (m = n ∧ u = t)) :
    (A.publish t n).entry l m u = A.entry l m u :=
  if_neg h

theorem entry_publish_self : (A.publish t n).entry l n t = (A.entry l n t).or (A.entry l 0 t) :=
  if_pos ⟨rfl, rfl⟩

end Publish

/-! ## Numbers in use -/

/-- No number above the bound is in use. -/
def Bounded (A : VersionArchive τ κ ν) (bound : Nat) : Prop :=
  ∀ k n t, A.entry k n t ≠ none → n ≤ bound

theorem bounded_empty (bound : Nat) : (empty : VersionArchive τ κ ν).Bounded bound :=
  fun _ _ _ h => absurd rfl h

theorem Bounded.mono {A : VersionArchive τ κ ν} {bound bound' : Nat} (h : A.Bounded bound)
    (hle : bound ≤ bound') : A.Bounded bound' :=
  fun k n t hne => Nat.le_trans (h k n t hne) hle

theorem Bounded.stage [DecidableEq τ] [DecidableEq κ] {A : VersionArchive τ κ ν} {bound : Nat}
    (h : A.Bounded bound) (t : τ) (k : κ) (value : Option ν) : (A.stage t k value).Bounded bound := by
  intro l m u hne
  by_cases hm : m = 0
  · rw [hm]
    exact Nat.zero_le bound
  · rw [entry_stage_of_pos hm] at hne
    exact h l m u hne

theorem Bounded.publish [DecidableEq τ] {A : VersionArchive τ κ ν} {bound n : Nat}
    (h : A.Bounded bound) (t : τ) (hn : n ≤ bound) : (A.publish t n).Bounded bound := by
  intro l m u hne
  by_cases hplace : m = n ∧ u = t
  · rw [hplace.1]
    exact hn
  · rw [entry_publish_of_ne hplace] at hne
    exact h l m u hne

/-- A reader with a higher horizon sees nothing more. -/
theorem Bounded.reads_mono [LinearOrder τ] {A : VersionArchive τ κ ν} {bound horizon : Nat}
    (h : A.Bounded bound) (hle : bound ≤ horizon) {t : τ} {k : κ} {value : Option ν} :
    A.Reads horizon t k value ↔ A.Reads bound t k value := by
  have hvisible : ∀ {m : Nat} {x : τ}, A.entry k m x ≠ none →
      (Visible horizon t m x ↔ Visible bound t m x) := by
    intro m x hne
    have hm := h k m x hne
    by_cases hzero : m = 0
    · rw [hzero, visible_zero, visible_zero]
    · rw [visible_of_pos hzero, visible_of_pos hzero]
      exact iff_of_true (Nat.le_trans hm hle) hm
  constructor
  · rintro (⟨m, x, hshows⟩ | ⟨rfl, hnone⟩)
    · have hne : A.entry k m x ≠ none := by
        rw [hshows.filed]
        exact Option.some_ne_none _
      exact Or.inl ⟨m, x, hshows.filed, (hvisible hne).1 hshows.visible,
        fun i y hvis hi => hshows.newest i y ((hvisible hi).2 hvis) hi⟩
    · refine Or.inr ⟨rfl, fun m x hvis => ?_⟩
      by_contra hne
      exact hne (hnone m x ((hvisible hne).2 hvis))
  · rintro (⟨m, x, hshows⟩ | ⟨rfl, hnone⟩)
    · have hne : A.entry k m x ≠ none := by
        rw [hshows.filed]
        exact Option.some_ne_none _
      exact Or.inl ⟨m, x, hshows.filed, (hvisible hne).2 hshows.visible,
        fun i y hvis hi => hshows.newest i y ((hvisible hi).1 hvis) hi⟩
    · refine Or.inr ⟨rfl, fun m x hvis => ?_⟩
      by_contra hne
      exact hne (hnone m x ((hvisible hne).1 hvis))

/-! ## What a write changes for readers -/

section

variable [LinearOrder τ] [DecidableEq κ] {A : VersionArchive τ κ ν} {horizon : Nat} {t u : τ}
  {k l : κ} {value staged : Option ν}

/-- A staged write is seen by its writer only. -/
theorem reads_stage_other (h : u ≠ t ∨ l ≠ k) :
    (A.stage t k staged).Reads horizon u l value ↔ A.Reads horizon u l value := by
  apply reads_congr
  intro m x hvisible
  apply entry_file_of_ne
  rintro ⟨rfl, rfl, rfl⟩
  rw [visible_zero] at hvisible
  exact h.elim (fun hne => hne hvisible.symm) fun hne => hne rfl

/-- A writer that sees no version of the key reads its own write. -/
theorem reads_stage_self (h : A.ShowsNothing horizon t k) :
    (A.stage t k staged).Reads horizon t k staged := by
  have hfree : A.entry k 0 t = none := h 0 t (visible_zero.2 rfl)
  refine Or.inl ⟨0, t, entry_file_self hfree, visible_zero.2 rfl, ?_⟩
  intro m x hvisible hne
  by_cases hplace : k = k ∧ m = 0 ∧ x = t
  · exact Or.inr ⟨hplace.2.1, hplace.2.2.ge⟩
  · rw [stage, entry_file_of_ne hplace] at hne
    exact absurd (h m x hvisible) hne

/-- A committed version hides what the reader has staged. -/
theorem reads_stage_hidden {m : Nat} {x : τ} (hm : m ≠ 0) (hvisible : Visible horizon t m x)
    (hne : A.entry k m x ≠ none) :
    (A.stage t k staged).Reads horizon t k value ↔ A.Reads horizon t k value := by
  have hsame : ∀ i y, m ≤ i → A.entry k i y = (A.stage t k staged).entry k i y :=
    fun i y hi => (entry_stage_of_pos (by omega)).symm
  exact (reads_congr_above hvisible hne hsame).symm

/-- A writer that sees a version of the key goes on reading it. -/
theorem reads_stage_shown (h : ¬ A.ShowsNothing horizon t k) :
    (A.stage t k staged).Reads horizon t k value ↔ A.Reads horizon t k value := by
  simp only [ShowsNothing, not_forall] at h
  obtain ⟨m, x, hvisible, hne⟩ := h
  by_cases hm : m = 0
  · rw [hm, visible_zero] at hvisible
    rw [stage_of_taken (by rw [← hvisible, ← hm]; exact hne)]
  · exact reads_stage_hidden hm hvisible hne

end

section

variable [LinearOrder τ] {A : VersionArchive τ κ ν} {horizon n : Nat} {t u : τ} {l : κ}
  {value staged : Option ν}

/-- A commit above the horizon is not seen. -/
theorem reads_publish_of_lt (h : horizon < n) :
    (A.publish t n).Reads horizon u l value ↔ A.Reads horizon u l value := by
  apply reads_congr
  intro m x hvisible
  apply entry_publish_of_ne
  rintro ⟨rfl, rfl⟩
  rw [visible_of_pos (by omega)] at hvisible
  omega

/-- A commit changes nothing for the keys that its writer has not staged. -/
theorem reads_publish_unstaged (h : A.entry l 0 t = none) :
    (A.publish t n).Reads horizon u l value ↔ A.Reads horizon u l value := by
  apply reads_congr
  intro m x _
  by_cases hplace : m = n ∧ x = t
  · obtain ⟨rfl, rfl⟩ := hplace
    rw [entry_publish_self, h, Option.or_none]
  · exact entry_publish_of_ne hplace

/-- A commit below a visible version is not read. -/
theorem reads_publish_stale {m : Nat} {x : τ} (hlt : n < m) (hvisible : Visible horizon u m x)
    (hne : A.entry l m x ≠ none) :
    (A.publish t n).Reads horizon u l value ↔ A.Reads horizon u l value := by
  have hsame : ∀ i y, m ≤ i → A.entry l i y = (A.publish t n).entry l i y :=
    fun i y hi => (entry_publish_of_ne (by omega)).symm
  exact (reads_congr_above hvisible hne hsame).symm

/-- A commit under a number above all that the key has is what everyone reads. -/
theorem reads_publish_staged (hn : n ≠ 0) (hhorizon : n ≤ horizon)
    (hfresh : ∀ m x, A.entry l m x ≠ none → m ≤ horizon → m < n) (h : A.entry l 0 t = some staged) :
    (A.publish t n).Reads horizon u l staged := by
  have hfree : A.entry l n t = none := by
    by_contra hne
    exact Nat.lt_irrefl n (hfresh n t hne hhorizon)
  refine Or.inl ⟨n, t, ?_, (visible_of_pos hn).2 hhorizon, ?_⟩
  · rw [entry_publish_self, hfree, h]
    rfl
  · intro m x hvisible hne
    by_cases hplace : m = n ∧ x = t
    · exact Or.inr ⟨hplace.1, hplace.2.ge⟩
    · rw [entry_publish_of_ne hplace] at hne
      refine Or.inl (hfresh m x hne ?_)
      by_cases hm : m = 0
      · omega
      · exact (visible_of_pos hm).1 hvisible

end

/-! ## The newest version -/

/-- The key has a committed version. -/
def Committed (A : VersionArchive τ κ ν) (k : κ) : Prop := ∃ n u, n ≠ 0 ∧ A.entry k n u ≠ none

section

variable {A B : VersionArchive τ κ ν} {k : κ}

theorem committed_congr (h : ∀ m x, m ≠ 0 → A.entry k m x = B.entry k m x) :
    A.Committed k ↔ B.Committed k := by
  refine exists_congr fun m => exists_congr fun x => and_congr_right fun hm => ?_
  rw [h m x hm]

theorem not_committed_empty : ¬ (empty : VersionArchive τ κ ν).Committed k := by
  rintro ⟨n, u, -, hne⟩
  exact hne rfl

end

section

variable [LinearOrder τ] {A B : VersionArchive τ κ ν} {horizon n : Nat} {t u : τ} {k l : κ}
  {value staged : Option ν}

/-- A commit under number 0 files nothing. -/
theorem publish_zero (t : τ) : A.publish t 0 = A := by
  ext l m x : 4
  by_cases hplace : m = 0 ∧ x = t
  · obtain ⟨rfl, rfl⟩ := hplace
    rw [entry_publish_self, Option.or_self]
  · exact entry_publish_of_ne hplace

/-- The committed version of the key that readers come to first. -/
def Newest (A : VersionArchive τ κ ν) (k : κ) (value : Option ν) : Prop :=
  ∃ n u, n ≠ 0 ∧ A.entry k n u = some value ∧
    ∀ m x, m ≠ 0 → A.entry k m x ≠ none → m < n ∨ (m = n ∧ u ≤ x)

theorem Newest.committed (h : A.Newest k value) : A.Committed k := by
  obtain ⟨n, u, hn, hfiled, -⟩ := h
  exact ⟨n, u, hn, by rw [hfiled]; exact Option.some_ne_none _⟩

theorem newest_congr (h : ∀ m x, m ≠ 0 → A.entry k m x = B.entry k m x) :
    A.Newest k value ↔ B.Newest k value := by
  refine exists_congr fun n => exists_congr fun u => and_congr_right fun hn => ?_
  rw [h n u hn]
  refine and_congr_right fun _ => forall_congr' fun m => forall_congr' fun x => ?_
  refine imp_congr_right fun hm => ?_
  rw [h m x hm]

section

variable [DecidableEq κ]

theorem committed_stage_iff : (A.stage t l staged).Committed k ↔ A.Committed k :=
  committed_congr fun _ _ hm => entry_stage_of_pos hm

theorem newest_stage_iff : (A.stage t l staged).Newest k value ↔ A.Newest k value :=
  newest_congr fun _ _ hm => entry_stage_of_pos hm

end

theorem entry_publish_unstaged (h : A.entry k 0 t = none) (m : Nat) (x : τ) :
    (A.publish t n).entry k m x = A.entry k m x := by
  by_cases hplace : m = n ∧ x = t
  · obtain ⟨rfl, rfl⟩ := hplace
    rw [entry_publish_self, h, Option.or_none]
  · exact entry_publish_of_ne hplace

/-- Under a horizon that nothing exceeds, a reader gets the newest committed version, and its own
staged one where there is none. -/
theorem Bounded.reads_iff (h : A.Bounded horizon) : A.Reads horizon t k value ↔
    A.Newest k value ∨ (¬ A.Committed k ∧ value = (A.entry k 0 t).getD none) := by
  have hvisible : ∀ m x, m ≠ 0 → A.entry k m x ≠ none → Visible horizon t m x :=
    fun m x hm hne => (visible_of_pos hm).2 (h k m x hne)
  constructor
  · rintro (⟨n, u, hshows⟩ | ⟨rfl, hnone⟩)
    · by_cases hn : n = 0
      · subst hn
        obtain rfl := visible_zero.1 hshows.visible
        refine Or.inr ⟨?_, ?_⟩
        · rintro ⟨m, x, hm, hne⟩
          rcases hshows.newest m x (hvisible m x hm hne) hne with hlt | ⟨rfl, -⟩
          · omega
          · exact hm rfl
        · rw [hshows.filed]
          rfl
      · exact Or.inl ⟨n, u, hn, hshows.filed,
          fun m x hm hne => hshows.newest m x (hvisible m x hm hne) hne⟩
    · refine Or.inr ⟨?_, ?_⟩
      · rintro ⟨m, x, hm, hne⟩
        exact hne (hnone m x (hvisible m x hm hne))
      · rw [hnone 0 t (visible_zero.2 rfl)]
        rfl
  · rintro (⟨n, u, hn, hfiled, hnewest⟩ | ⟨hnot, rfl⟩)
    · refine Or.inl ⟨n, u, hfiled, ?_, ?_⟩
      · exact hvisible n u hn (by rw [hfiled]; exact Option.some_ne_none _)
      · intro m x _ hne
        by_cases hm : m = 0
        · exact Or.inl (by omega)
        · exact hnewest m x hm hne
    · have hfree : ∀ m x, m ≠ 0 → A.entry k m x = none := by
        intro m x hm
        by_contra hne
        exact hnot ⟨m, x, hm, hne⟩
      cases hstaged : A.entry k 0 t with
      | none =>
        refine Or.inr ⟨rfl, fun m x hvis => ?_⟩
        by_cases hm : m = 0
        · subst hm
          rw [visible_zero.1 hvis, hstaged]
        · exact hfree m x hm
      | some outcome =>
        refine Or.inl ⟨0, t, hstaged, visible_zero.2 rfl, fun m x hvis hne => ?_⟩
        by_cases hm : m = 0
        · subst hm
          exact Or.inr ⟨rfl, (visible_zero.1 hvis).ge⟩
        · exact absurd (hfree m x hm) hne

/-! ## Commits under any number -/

/-- A version of the key comes before any that the writer commits under the number. -/
def Outranked (A : VersionArchive τ κ ν) (k : κ) (n : Nat) (t : τ) : Prop :=
  n = 0 ∨ ∃ m x, m ≠ 0 ∧ A.entry k m x ≠ none ∧ (n < m ∨ (n = m ∧ x ≤ t))

theorem not_outranked_of_not_committed (hn : n ≠ 0) (h : ¬ A.Committed k) : ¬ A.Outranked k n t := by
  rintro (hzero | ⟨m, x, hm, hne, -⟩)
  · exact hn hzero
  · exact h ⟨m, x, hm, hne⟩

theorem Bounded.not_outranked (h : A.Bounded horizon) (hlt : horizon < n) : ¬ A.Outranked k n t := by
  rintro (rfl | ⟨m, x, -, hne, hfront⟩)
  · exact Nat.not_lt_zero _ hlt
  · have hm := h k m x hne
    omega

/-- A commit behind a version of the key changes nothing that is read there. -/
theorem Bounded.reads_publish_outranked (h : A.Bounded horizon) (hout : A.Outranked k n t) :
    (A.publish t n).Reads horizon u k value ↔ A.Reads horizon u k value := by
  rcases hout with rfl | ⟨m, x, hm, hne, hfront⟩
  · rw [publish_zero]
  have hvisible : Visible horizon u m x := (visible_of_pos hm).2 (h k m x hne)
  refine (reads_congr_front hvisible hne fun i y hi => ?_).symm
  by_cases hplace : i = n ∧ y = t
  · obtain ⟨rfl, rfl⟩ := hplace
    -- both stand at the place of the version in front, which keeps it
    obtain rfl : m = i := by omega
    have hxy : x = y := by
      rcases hfront with hlt | ⟨-, hle⟩
      · omega
      · exact le_antisymm hle (hi.resolve_left (lt_irrefl _)).2
    subst hxy
    obtain ⟨old, hold⟩ := Option.ne_none_iff_exists'.1 hne
    rw [entry_publish_self, hold, Option.some_or]
  · exact (entry_publish_of_ne hplace).symm

/-- A commit in front of all committed versions is what is read. -/
theorem newest_publish (hout : ¬ A.Outranked k n t) (h : A.entry k 0 t = some staged) :
    (A.publish t n).Newest k staged := by
  rw [Outranked, not_or, not_exists] at hout
  have hfront : ∀ m x, m ≠ 0 → A.entry k m x ≠ none → m < n ∨ (m = n ∧ t < x) := by
    intro m x hm hne
    have hnot := hout.2 m
    rw [not_exists] at hnot
    have hbehind : ¬ (n < m ∨ (n = m ∧ x ≤ t)) := fun hfront => hnot x ⟨hm, hne, hfront⟩
    rw [not_or, not_and, not_le] at hbehind
    by_cases heq : n = m
    · exact Or.inr ⟨heq.symm, hbehind.2 heq⟩
    · exact Or.inl (by omega)
  have hfree : A.entry k n t = none := by
    by_contra hne
    rcases hfront n t hout.1 hne with hlt | ⟨-, hlt⟩
    · exact Nat.lt_irrefl n hlt
    · exact lt_irrefl t hlt
  refine ⟨n, t, hout.1, ?_, ?_⟩
  · rw [entry_publish_self, hfree, h]
    rfl
  · intro m x hm hne
    by_cases hplace : m = n ∧ x = t
    · exact Or.inr ⟨hplace.1, hplace.2.ge⟩
    · rw [entry_publish_of_ne hplace] at hne
      exact (hfront m x hm hne).imp_right fun h => ⟨h.1, h.2.le⟩

end

/-! ## Archives that differ in what one writer has staged -/

/-- The archives agree but for the staged versions of one writer. -/
def SameBut (t : τ) (A B : VersionArchive τ κ ν) : Prop :=
  ∀ k n u, ¬ (n = 0 ∧ u = t) → A.entry k n u = B.entry k n u

namespace SameBut

variable {A B : VersionArchive τ κ ν} {t u : τ}

theorem refl (t : τ) (A : VersionArchive τ κ ν) : A.SameBut t A := fun _ _ _ _ => rfl

/-- Other readers read alike. -/
theorem reads_iff [LinearOrder τ] (h : A.SameBut t B) (hne : u ≠ t) {horizon : Nat} {k : κ}
    {value : Option ν} : A.Reads horizon u k value ↔ B.Reads horizon u k value := by
  apply reads_congr
  intro n x hvisible
  apply h k n x
  rintro ⟨rfl, rfl⟩
  rw [visible_zero] at hvisible
  exact hne hvisible.symm

theorem stage_left [DecidableEq τ] [DecidableEq κ] (h : A.SameBut t B) (k : κ) (value : Option ν) :
    (A.stage t k value).SameBut t B := by
  intro l n u hne
  rw [stage, entry_file_of_ne fun hplace => hne ⟨hplace.2.1, hplace.2.2⟩]
  exact h l n u hne

theorem stage [DecidableEq τ] [DecidableEq κ] (h : A.SameBut t B) (hne : u ≠ t) (k : κ)
    (value : Option ν) : (A.stage u k value).SameBut t (B.stage u k value) := by
  intro l n x hplace
  by_cases hself : l = k ∧ n = 0 ∧ x = u
  · obtain ⟨rfl, rfl, rfl⟩ := hself
    have hentry := h l 0 x hplace
    show (if l = l ∧ 0 = 0 ∧ x = x then _ else _) = if l = l ∧ 0 = 0 ∧ x = x then _ else _
    rw [if_pos ⟨rfl, rfl, rfl⟩, if_pos ⟨rfl, rfl, rfl⟩, hentry]
  · rw [VersionArchive.stage, VersionArchive.stage, entry_file_of_ne hself, entry_file_of_ne hself]
    exact h l n x hplace

theorem publish [DecidableEq τ] (h : A.SameBut t B) (hne : u ≠ t) (n : Nat) :
    (A.publish u n).SameBut t (B.publish u n) := by
  intro l m x hplace
  by_cases hself : m = n ∧ x = u
  · obtain ⟨rfl, rfl⟩ := hself
    rw [entry_publish_self, entry_publish_self, h l m x hplace, h l 0 x fun hzero => hne hzero.2]
  · rw [entry_publish_of_ne hself, entry_publish_of_ne hself]
    exact h l m x hplace

end SameBut

end VersionArchive

end OpenDB.Library
