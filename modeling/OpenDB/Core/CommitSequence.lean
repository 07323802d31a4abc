import OpenDB.Core.TransactionManager
import OpenDB.Library.Trace
import Mathlib.Data.List.Pairwise
import Mathlib.Order.Basic
import Mathlib.Tactic.Ring

/-!
# Commit sequence numbers

A session that commits a transaction calls `commitTxn`, which advances the counter, then
`visibleSeq`, which reads it, and passes what it has read to the engine. The two calls take the mutex
separately, so other sessions may commit in between. The numbers that reach the engine are distinct
and follow the order of the commits when no `commitTxn` happens between another session's two calls
and the counter does not wrap around, and in a run that leaves nobody half-way only then
(`commitSeqs_increasing_iff`).

A `commitTxn` that reports failure commits nothing and is not a step of this system.
-/

set_option autoImplicit false

namespace OpenDB

open OpenDB.Library

/-- A committed transaction: what `visibleSeq` returned to its session, and whether the session has
passed it to the engine. -/
structure CommitRecord where
  txn : UInt64
  seq : Option UInt64
  passed : Bool
  deriving DecidableEq, Repr

/-- The number that has reached the engine. -/
def CommitRecord.engineSeq (r : CommitRecord) : Option UInt64 := if r.passed then r.seq else none

/-- The manager and the committed transactions in the order of their `commitTxn`. -/
structure CommitSystem where
  manager : TransactionManager
  commits : List CommitRecord

/-- The steps of all sessions. The session of a commit is its place in the order of commits. -/
inductive CommitEvent where
  | beginTxn
  | abortTxn (txn : UInt64)
  | commitTxn (txn : UInt64)
  | visibleSeq (i : Nat)
  | engineCommit (i : Nat)
  deriving DecidableEq, Repr

namespace CommitSystem

def new : CommitSystem := ⟨.new, []⟩

/-- One step; `none` when no session is there to take it. -/
def step (s : CommitSystem) : CommitEvent → Option CommitSystem
  | .beginTxn => some { s with manager := s.manager.beginTxn.2 }
  | .abortTxn txn => some { s with manager := (s.manager.abortTxn txn).2 }
  | .commitTxn txn =>
    match s.manager.commitTxn txn with
    | (true, manager) => some ⟨manager, s.commits ++ [⟨txn, none, false⟩]⟩
    | (false, _) => none
  | .visibleSeq i =>
    match s.commits[i]? with
    | some ⟨txn, none, passed⟩ =>
      some { s with commits := s.commits.set i ⟨txn, some s.manager.visibleSeq, passed⟩ }
    | _ => none
  | .engineCommit i =>
    match s.commits[i]? with
    | some ⟨txn, some seq, false⟩ =>
      some { s with commits := s.commits.set i ⟨txn, some seq, true⟩ }
    | _ => none

end CommitSystem

/-- The runs of a new manager. -/
abbrev CommitRun := Run CommitSystem.step CommitSystem.new

/-- Later commits pass larger numbers to the engine. -/
def SeqsIncreasing (s : CommitSystem) : Prop :=
  s.commits.Pairwise fun a b => ∀ x ∈ a.engineSeq, ∀ y ∈ b.engineSeq, x < y

/-- Every session has passed its number to the engine. -/
def Finished (s : CommitSystem) : Prop := ∀ r ∈ s.commits, r.engineSeq.isSome

/-- The step commits while another session is between its two calls, or wraps the counter around. -/
def Overtakes (s : CommitSystem) : CommitEvent → Prop
  | .commitTxn _ => (∃ r ∈ s.commits, r.seq = none) ∨ s.manager.commitSeq + 1 = 0
  | _ => False

instance (s : CommitSystem) : (e : CommitEvent) → Decidable (Overtakes s e)
  | .commitTxn _ => inferInstanceAs (Decidable (_ ∨ _))
  | .beginTxn => inferInstanceAs (Decidable False)
  | .abortTxn _ => inferInstanceAs (Decidable False)
  | .visibleSeq _ => inferInstanceAs (Decidable False)
  | .engineCommit _ => inferInstanceAs (Decidable False)

namespace CommitSystem

variable {s s' : CommitSystem} {e : CommitEvent}

/-- What a step can do: a new commit, a number read, a number passed on, or nothing to the commits. -/
theorem step_cases (h : s.step e = some s') :
    (∃ txn, e = .commitTxn txn ∧ s'.manager.commitSeq = s.manager.commitSeq + 1 ∧
      s'.commits = s.commits ++ [⟨txn, none, false⟩]) ∨
    (∃ i r, e = .visibleSeq i ∧ s.commits[i]? = some r ∧ r.seq = none ∧ s'.manager = s.manager ∧
      s'.commits = s.commits.set i { r with seq := some s.manager.commitSeq }) ∨
    (∃ i r, e = .engineCommit i ∧ s.commits[i]? = some r ∧ s'.manager = s.manager ∧
      s'.commits = s.commits.set i { r with passed := true }) ∨
    ((e = .beginTxn ∨ ∃ txn, e = .abortTxn txn) ∧
      s'.manager.commitSeq = s.manager.commitSeq ∧ s'.commits = s.commits) := by
  cases e with
  | beginTxn =>
    cases h
    exact Or.inr (Or.inr (Or.inr ⟨Or.inl rfl, rfl, rfl⟩))
  -- neither a begin nor an abort touches the counter or the commits
  | abortTxn txn =>
    cases h
    refine Or.inr (Or.inr (Or.inr ⟨Or.inr ⟨txn, rfl⟩, ?_, rfl⟩))
    dsimp only [TransactionManager.abortTxn]
    split_ifs <;> rfl
  -- only a transaction that is active is committed
  | commitTxn txn =>
    dsimp only [step, TransactionManager.commitTxn] at h
    split_ifs at h with hactive
    cases h
    exact Or.inl ⟨txn, rfl, rfl, rfl⟩
  | visibleSeq i =>
    dsimp only [step] at h
    split at h
    · rename_i txn passed hget
      cases h
      exact Or.inr (Or.inl ⟨i, _, rfl, hget, rfl, rfl, rfl⟩)
    · cases h
  | engineCommit i =>
    dsimp only [step] at h
    split at h
    · rename_i txn seq hget
      cases h
      exact Or.inr (Or.inr (Or.inl ⟨i, _, rfl, hget, rfl, rfl⟩))
    · cases h

end CommitSystem

/-! ## All runs -/

/-- The counter counts the commits, and a session reads it at its own commit or later. -/
structure Numbered (s : CommitSystem) : Prop where
  counter : s.manager.commitSeq = UInt64.ofNat s.commits.length
  read : ∀ i r x, s.commits[i]? = some r → r.seq = some x →
    ∃ k, i + 1 ≤ k ∧ k ≤ s.commits.length ∧ x = UInt64.ofNat k

theorem numbered_new : Numbered CommitSystem.new := by
  refine ⟨rfl, ?_⟩
  intro i r x hget
  cases hget

theorem getElem?_append_singleton {α : Type} {l : List α} {a b : α} {i : Nat}
    (h : (l ++ [a])[i]? = some b) : l[i]? = some b ∨ (i = l.length ∧ b = a) := by
  rcases Nat.lt_trichotomy i l.length with hlt | rfl | hgt
  · rw [List.getElem?_append_left hlt] at h
    exact Or.inl h
  · rw [List.getElem?_concat_length] at h
    exact Or.inr ⟨rfl, (Option.some.inj h).symm⟩
  · rw [List.getElem?_eq_none (by simp; omega)] at h
    cases h

theorem getElem?_set_cases {α : Type} {l : List α} {a b : α} {i j : Nat}
    (h : (l.set i a)[j]? = some b) : l[j]? = some b ∨ (j = i ∧ b = a) := by
  rw [List.getElem?_set] at h
  split_ifs at h with hij hlt
  · exact Or.inr ⟨hij.symm, (Option.some.inj h).symm⟩
  · exact Or.inl h

theorem lt_of_getElem? {α : Type} {l : List α} {a : α} {i : Nat} (h : l[i]? = some a) :
    i < l.length :=
  (List.getElem?_eq_some_iff.1 h).1

theorem Numbered.step {s s' : CommitSystem} {e : CommitEvent} (hs : Numbered s)
    (h : s.step e = some s') : Numbered s' := by
  rcases CommitSystem.step_cases h with ⟨txn, -, hseq, hcommits⟩ | ⟨i, r, -, hget, -, hmanager, hcommits⟩ |
    ⟨i, r, -, hget, hmanager, hcommits⟩ | ⟨-, hseq, hcommits⟩
  · refine ⟨?_, ?_⟩
    · rw [hseq, hs.counter, hcommits, List.length_append, List.length_singleton, UInt64.ofNat_add]
      rfl
    -- a new commit has read nothing yet, the others have read smaller numbers
    · intro j q x hq hx
      rw [hcommits] at hq
      rcases getElem?_append_singleton hq with hq | ⟨-, rfl⟩
      · obtain ⟨k, hlow, hhigh, rfl⟩ := hs.read j q x hq hx
        refine ⟨k, hlow, ?_, rfl⟩
        rw [hcommits, List.length_append]
        omega
      · cases hx
  · have hlen : s'.commits.length = s.commits.length := by rw [hcommits, List.length_set]
    refine ⟨by rw [hmanager, hlen]; exact hs.counter, ?_⟩
    intro j q x hq hx
    rw [hlen]
    rw [hcommits] at hq
    rcases getElem?_set_cases hq with hq | ⟨rfl, rfl⟩
    · exact hs.read j q x hq hx
    · cases hx
      -- what is read now is the counter, the number of all commits so far
      exact ⟨s.commits.length, lt_of_getElem? hget, Nat.le_refl _, hs.counter⟩
  · have hlen : s'.commits.length = s.commits.length := by rw [hcommits, List.length_set]
    refine ⟨by rw [hmanager, hlen]; exact hs.counter, ?_⟩
    intro j q x hq hx
    rw [hlen]
    rw [hcommits] at hq
    rcases getElem?_set_cases hq with hq | ⟨rfl, rfl⟩
    · exact hs.read j q x hq hx
    · exact hs.read j r x hget hx
  · refine ⟨by rw [hseq, hcommits]; exact hs.counter, ?_⟩
    rw [hcommits]
    exact hs.read

theorem numbered_run {trace : List (CommitSystem × CommitEvent)} {s : CommitSystem}
    (h : CommitRun trace s) : Numbered s :=
  h.invariant numbered_new fun _ _ _ hs hstep => hs.step hstep

/-! ## Runs without overtaking -/

/-- Every session that has read the counter has read the number of its own commit, and only the last
one may not have read it yet. -/
structure InOrder (s : CommitSystem) : Prop where
  few : s.commits.length < 2 ^ 64
  read : ∀ i r x, s.commits[i]? = some r → r.seq = some x → x = UInt64.ofNat (i + 1)
  last : ∀ i r, s.commits[i]? = some r → r.seq = none → i + 1 = s.commits.length

theorem inOrder_new : InOrder CommitSystem.new := by
  refine ⟨Nat.two_pow_pos 64, ?_, ?_⟩
  · intro i r x hget
    cases hget
  · intro i r hget
    cases hget

theorem InOrder.step {s s' : CommitSystem} {e : CommitEvent} (hs : InOrder s) (hnum : Numbered s)
    (h : s.step e = some s') (hnot : ¬ Overtakes s e) : InOrder s' := by
  rcases CommitSystem.step_cases h with ⟨txn, rfl, -, hcommits⟩ |
    ⟨i, r, -, hget, hnone, -, hcommits⟩ | ⟨i, r, -, hget, -, hcommits⟩ | ⟨-, -, hcommits⟩
  · have hread : ∀ r ∈ s.commits, r.seq ≠ none := fun r hr hnone => hnot (Or.inl ⟨r, hr, hnone⟩)
    have hwrap : s.manager.commitSeq + 1 ≠ 0 := fun hzero => hnot (Or.inr hzero)
    refine ⟨?_, ?_, ?_⟩
    -- the counter would be at its largest value, and the next commit would overtake
    · rw [hnum.counter] at hwrap
      by_contra hbig
      rw [hcommits, List.length_append, List.length_singleton] at hbig
      have hfew := hs.few
      have hlen : s.commits.length = 2 ^ 64 - 1 := by omega
      rw [hlen] at hwrap
      exact hwrap rfl
    · intro j q x hq hx
      rw [hcommits] at hq
      rcases getElem?_append_singleton hq with hq | ⟨-, rfl⟩
      · exact hs.read j q x hq hx
      · cases hx
    · intro j q hq hx
      rw [hcommits] at hq
      rcases getElem?_append_singleton hq with hq | ⟨rfl, -⟩
      · exact absurd hx (hread q (List.mem_of_getElem? hq))
      · rw [hcommits, List.length_append, List.length_singleton]
  · have hlen : s'.commits.length = s.commits.length := by rw [hcommits, List.length_set]
    refine ⟨by rw [hlen]; exact hs.few, ?_, ?_⟩
    · intro j q x hq hx
      rw [hcommits] at hq
      rcases getElem?_set_cases hq with hq | ⟨rfl, rfl⟩
      · exact hs.read j q x hq hx
      · -- nobody has committed since, so the counter still has the number of this commit
        cases hx
        rw [hnum.counter, hs.last j r hget hnone]
    · intro j q hq hx
      rw [hlen]
      rw [hcommits] at hq
      rcases getElem?_set_cases hq with hq | ⟨-, rfl⟩
      · exact hs.last j q hq hx
      · cases hx
  · have hlen : s'.commits.length = s.commits.length := by rw [hcommits, List.length_set]
    refine ⟨by rw [hlen]; exact hs.few, ?_, ?_⟩
    · intro j q x hq hx
      rw [hcommits] at hq
      rcases getElem?_set_cases hq with hq | ⟨rfl, rfl⟩
      · exact hs.read j q x hq hx
      · exact hs.read j r x hget hx
    · intro j q hq hx
      rw [hlen]
      rw [hcommits] at hq
      rcases getElem?_set_cases hq with hq | ⟨rfl, rfl⟩
      · exact hs.last j q hq hx
      · exact hs.last j r hget hx
  · refine ⟨by rw [hcommits]; exact hs.few, ?_, ?_⟩
    · rw [hcommits]
      exact hs.read
    · rw [hcommits]
      exact hs.last

theorem inOrder_run {trace : List (CommitSystem × CommitEvent)} {s : CommitSystem}
    (h : CommitRun trace s) (hnot : ∀ p ∈ trace, ¬ Overtakes p.1 p.2) : InOrder s := by
  refine (h.invariant_of_forall (P := fun s => Numbered s ∧ InOrder s) ⟨numbered_new, inOrder_new⟩
    ?_ hnot).2
  rintro s e s' ⟨hnum, hs⟩ hstep hgood
  exact ⟨hnum.step hstep, hs.step hnum hstep hgood⟩

theorem CommitRecord.engineSeq_eq_some {r : CommitRecord} {x : UInt64} (h : r.engineSeq = some x) :
    r.seq = some x := by
  unfold CommitRecord.engineSeq at h
  split_ifs at h
  exact h

theorem InOrder.increasing {s : CommitSystem} (h : InOrder s) : SeqsIncreasing s := by
  unfold SeqsIncreasing
  rw [List.pairwise_iff_getElem]
  intro i j hi hj hij x hx y hy
  have hxi := h.read i _ x (List.getElem?_eq_getElem hi) (CommitRecord.engineSeq_eq_some hx)
  have hyj := h.read j _ y (List.getElem?_eq_getElem hj) (CommitRecord.engineSeq_eq_some hy)
  have hfew := h.few
  rw [hxi, hyj, UInt64.lt_iff_toNat_lt, UInt64.toNat_ofNat_of_lt' (show i + 1 < 2 ^ 64 by omega),
    UInt64.toNat_ofNat_of_lt' (show j + 1 < 2 ^ 64 by omega)]
  omega

/-! ## Runs with overtaking -/

/-- A session that has been overtaken: others have committed since its own commit, and it has not
read the counter yet, or has read it after them. -/
def Overtaken (s : CommitSystem) : Prop :=
  ∃ i r, s.commits[i]? = some r ∧ ((r.seq = none ∧ i + 2 ≤ s.commits.length) ∨
    ∃ k, i + 2 ≤ k ∧ k ≤ s.commits.length ∧ r.seq = some (UInt64.ofNat k))

/-- Something is out of order. -/
def OutOfOrder (s : CommitSystem) : Prop := Overtaken s ∨ 2 ^ 64 ≤ s.commits.length

theorem outOfOrder_of_overtakes {s s' : CommitSystem} {e : CommitEvent} (hnum : Numbered s)
    (h : s.step e = some s') (hover : Overtakes s e) : OutOfOrder s' := by
  rcases CommitSystem.step_cases h with ⟨txn, rfl, -, hcommits⟩ | ⟨i, r, rfl, -⟩ | ⟨i, r, rfl, -⟩ |
    ⟨rfl | ⟨txn, rfl⟩, -⟩
  · rcases hover with ⟨r, hr, hnone⟩ | hwrap
    · obtain ⟨i, hi⟩ := List.getElem?_of_mem hr
      have hlt := lt_of_getElem? hi
      refine Or.inl ⟨i, r, ?_, Or.inl ⟨hnone, ?_⟩⟩
      · rw [hcommits, List.getElem?_append_left hlt]
        exact hi
      · rw [hcommits, List.length_append, List.length_singleton]
        omega
    · right
      rw [hnum.counter] at hwrap
      have hzero := congrArg UInt64.toNat hwrap
      rw [UInt64.toNat_add, UInt64.toNat_ofNat', UInt64.toNat_zero, UInt64.toNat_one] at hzero
      rw [hcommits, List.length_append, List.length_singleton]
      omega
  · exact absurd hover id
  · exact absurd hover id
  · exact absurd hover id
  · exact absurd hover id

theorem Overtaken.step {s s' : CommitSystem} {e : CommitEvent} (hs : Overtaken s)
    (hnum : Numbered s) (h : s.step e = some s') : Overtaken s' := by
  obtain ⟨i, r, hget, hlate⟩ := hs
  have hi := lt_of_getElem? hget
  rcases CommitSystem.step_cases h with ⟨txn, -, -, hcommits⟩ | ⟨j, q, -, hq, hnone, -, hcommits⟩ |
    ⟨j, q, -, hq, -, hcommits⟩ | ⟨-, -, hcommits⟩
  -- one more commit: the one that has been overtaken stays behind
  · refine ⟨i, r, by rw [hcommits, List.getElem?_append_left hi]; exact hget, ?_⟩
    rw [hcommits, List.length_append]
    rcases hlate with ⟨hnone, hlen⟩ | ⟨k, hlow, hhigh, hk⟩
    · exact Or.inl ⟨hnone, by omega⟩
    · exact Or.inr ⟨k, hlow, by omega, hk⟩
  · have hlen : s'.commits.length = s.commits.length := by rw [hcommits, List.length_set]
    -- the commit that is overtaken reads its number now, or another one does
    by_cases hij : j = i
    · subst hij
      rw [hget] at hq
      cases hq
      refine ⟨j, _, by rw [hcommits, List.getElem?_set_self hi], Or.inr ?_⟩
      rcases hlate with ⟨-, hlate⟩ | ⟨k, -, -, hk⟩
      · exact ⟨s.commits.length, hlate, by rw [hlen], by rw [hnum.counter]⟩
      · rw [hnone] at hk
        cases hk
    · refine ⟨i, r, by rw [hcommits, List.getElem?_set_ne hij]; exact hget, ?_⟩
      rw [hlen]
      exact hlate
  · have hlen : s'.commits.length = s.commits.length := by rw [hcommits, List.length_set]
    by_cases hij : j = i
    · subst hij
      rw [hget] at hq
      cases hq
      refine ⟨j, _, by rw [hcommits, List.getElem?_set_self hi], ?_⟩
      rw [hlen]
      exact hlate
    · refine ⟨i, r, by rw [hcommits, List.getElem?_set_ne hij]; exact hget, ?_⟩
      rw [hlen]
      exact hlate
  · exact ⟨i, r, by rw [hcommits]; exact hget, by rw [hcommits]; exact hlate⟩

theorem length_commits_le {s s' : CommitSystem} {e : CommitEvent} (h : s.step e = some s') :
    s.commits.length ≤ s'.commits.length := by
  rcases CommitSystem.step_cases h with ⟨txn, -, -, hcommits⟩ | ⟨j, q, -, -, -, -, hcommits⟩ |
    ⟨j, q, -, -, -, hcommits⟩ | ⟨-, -, hcommits⟩
  · rw [hcommits, List.length_append]
    omega
  · rw [hcommits, List.length_set]
  · rw [hcommits, List.length_set]
  · rw [hcommits]

theorem outOfOrder_run {trace : List (CommitSystem × CommitEvent)} {s : CommitSystem}
    (h : CommitRun trace s) (hover : ∃ p ∈ trace, Overtakes p.1 p.2) : OutOfOrder s := by
  induction h with
  | nil =>
    obtain ⟨p, hp, -⟩ := hover
    exact absurd hp List.not_mem_nil
  | @snoc trace s s' e hrun hstep ih =>
    obtain ⟨p, hp, hover⟩ := hover
    rcases List.mem_append.1 hp with hp | hp
    · rcases ih ⟨p, hp, hover⟩ with hlate | hmany
      · exact Or.inl (hlate.step (numbered_run hrun) hstep)
      · exact Or.inr (hmany.trans (length_commits_le hstep))
    · rw [List.mem_singleton.1 hp] at hover
      exact outOfOrder_of_overtakes (numbered_run hrun) hstep hover

/-- Numbers that grow with their place leave no gaps: with at least `i + 1` for the place `i` and the
length for the last place, each of them is its place. -/
theorem Numbered.exact {s : CommitSystem} (hnum : Numbered s) (hdone : Finished s)
    (hinc : SeqsIncreasing s) : s.commits.length < 2 ^ 64 ∧
      ∀ i r, s.commits[i]? = some r → r.seq = some (UInt64.ofNat (i + 1)) := by
  set n := s.commits.length with hn
  have hread : ∀ i, i < n → ∃ k, i + 1 ≤ k ∧ k ≤ n ∧
      ∀ r, s.commits[i]? = some r → r.engineSeq = some (UInt64.ofNat k) := by
    intro i hi
    have hget := List.getElem?_eq_getElem hi
    obtain ⟨x, hx⟩ := Option.isSome_iff_exists.1 (hdone _ (List.getElem_mem hi))
    obtain ⟨k, hlow, hhigh, rfl⟩ := hnum.read i _ x hget (CommitRecord.engineSeq_eq_some hx)
    refine ⟨k, hlow, hhigh, fun r hr => ?_⟩
    rw [hget] at hr
    rw [← Option.some.inj hr]
    exact hx
  -- the `i`-th commit has read the counter at some `k i`, between `i + 1` and `n`
  choose! k hlow hhigh hseq using hread
  have hstep : ∀ i, i + 1 < n → k i % 2 ^ 64 < k (i + 1) % 2 ^ 64 := by
    intro i hi
    unfold SeqsIncreasing at hinc
    rw [List.pairwise_iff_getElem] at hinc
    have hlt := hinc i (i + 1) (by omega) hi (by omega) _
      (hseq i (by omega) _ (List.getElem?_eq_getElem (by omega))) _
      (hseq (i + 1) hi _ (List.getElem?_eq_getElem hi))
    rw [UInt64.lt_iff_toNat_lt, UInt64.toNat_ofNat', UInt64.toNat_ofNat'] at hlt
    exact hlt
  -- increasing numbers of 64 bits grow by at least one from commit to commit
  have hgrow : ∀ d i, i + d < n → k i % 2 ^ 64 + d ≤ k (i + d) % 2 ^ 64 := by
    intro d
    induction d with
    | zero =>
      intro i _
      exact Nat.le_refl _
    | succ d ih =>
      intro i hi
      have hone := hstep (i + d) hi
      have hmore := ih i (by omega)
      show _ ≤ k (i + d + 1) % 2 ^ 64
      omega
  -- the last one would have read zero
  have hfew : n < 2 ^ 64 := by
    by_contra hbig
    have hlast := hgrow (n - 1) 0 (by omega)
    rw [Nat.zero_add] at hlast
    have hl := hlow (n - 1) (by omega)
    have hh := hhigh (n - 1) (by omega)
    have hmod := Nat.mod_lt (k (n - 1)) (Nat.two_pow_pos 64)
    have hkn : k (n - 1) = 2 ^ 64 := by omega
    rw [hkn, Nat.mod_self] at hlast
    omega
  refine ⟨hfew, ?_⟩
  intro i r hr
  have hi := lt_of_getElem? hr
  have hl := hlow i hi
  have hh := hhigh i hi
  have hend := hhigh (n - 1) (by omega)
  have hmore := hgrow (n - 1 - i) i (by omega)
  rw [show i + (n - 1 - i) = n - 1 by omega, Nat.mod_eq_of_lt (show k i < 2 ^ 64 by omega),
    Nat.mod_eq_of_lt (show k (n - 1) < 2 ^ 64 by omega)] at hmore
  -- too little room is left above for `k i` to be any larger
  have hki : k i = i + 1 := by omega
  rw [← hki]
  exact CommitRecord.engineSeq_eq_some (hseq i hi r hr)

theorem OutOfOrder.not_increasing {s : CommitSystem} (h : OutOfOrder s) (hnum : Numbered s)
    (hdone : Finished s) : ¬ SeqsIncreasing s := by
  intro hinc
  obtain ⟨hfew, hexact⟩ := hnum.exact hdone hinc
  rcases h with ⟨i, r, hget, hlate⟩ | hmany
  · have hseq := hexact i r hget
    rcases hlate with ⟨hnone, -⟩ | ⟨k, hlow, hhigh, hk⟩
    · rw [hnone] at hseq
      cases hseq
    · rw [hk] at hseq
      have heq := congrArg UInt64.toNat (Option.some.inj hseq)
      rw [UInt64.toNat_ofNat_of_lt' (show k < 2 ^ 64 by omega),
        UInt64.toNat_ofNat_of_lt' (show i + 1 < 2 ^ 64 by omega)] at heq
      omega
  · omega

/-- The numbers that reach the engine in any run: they are distinct and follow the order of the
commits when no step overtakes another session, and in a run that leaves nobody half-way only
then. -/
theorem commitSeqs_increasing_iff {trace : List (CommitSystem × CommitEvent)} {s : CommitSystem}
    (h : CommitRun trace s) :
    ((∀ p ∈ trace, ¬ Overtakes p.1 p.2) → SeqsIncreasing s) ∧
      (Finished s → (SeqsIncreasing s ↔ ∀ p ∈ trace, ¬ Overtakes p.1 p.2)) := by
  have hkeeps : (∀ p ∈ trace, ¬ Overtakes p.1 p.2) → SeqsIncreasing s :=
    fun hnot => (inOrder_run h hnot).increasing
  refine ⟨hkeeps, fun hdone => ⟨?_, hkeeps⟩⟩
  intro hinc
  by_contra hover
  push Not at hover
  exact (outOfOrder_run h hover).not_increasing (numbered_run h) hdone hinc

/-- Two sessions commit one after the other. -/
theorem commitSeqs_one_after_the_other : ∃ trace s, CommitRun trace s ∧ Finished s ∧
    s.commits.map CommitRecord.engineSeq = [some 1, some 2] ∧ SeqsIncreasing s := by
  have hend : ∃ s, (follow CommitSystem.step [.beginTxn, .beginTxn, .commitTxn 1, .visibleSeq 0, .commitTxn 2,
      .engineCommit 0, .visibleSeq 1, .engineCommit 1] .new).2 = some s ∧
      s.commits = [⟨1, some 1, true⟩, ⟨2, some 2, true⟩] := ⟨_, rfl, rfl⟩
  obtain ⟨s, hs, hcommits⟩ := hend
  have hrun := Run.of_follow hs
  refine ⟨_, s, hrun, ?_, ?_, (commitSeqs_increasing_iff hrun).1 (by decide)⟩
  · unfold Finished
    rw [hcommits]
    decide
  · rw [hcommits]
    rfl

/-- Both sessions call `commitTxn` before either reads the counter: they pass the same number. -/
theorem sessions_pass_same_seq : ∃ trace s, CommitRun trace s ∧ Finished s ∧
    s.commits = [⟨1, some 2, true⟩, ⟨2, some 2, true⟩] ∧ ¬ SeqsIncreasing s := by
  have hend : ∃ s, (follow CommitSystem.step [.beginTxn, .beginTxn, .commitTxn 1, .commitTxn 2, .visibleSeq 0,
      .visibleSeq 1, .engineCommit 0, .engineCommit 1] .new).2 = some s ∧
      s.commits = [⟨1, some 2, true⟩, ⟨2, some 2, true⟩] := ⟨_, rfl, rfl⟩
  obtain ⟨s, hs, hcommits⟩ := hend
  refine ⟨_, s, Run.of_follow hs, ?_, hcommits, ?_⟩
  · unfold Finished
    rw [hcommits]
    decide
  · intro hinc
    rw [SeqsIncreasing, hcommits, List.pairwise_cons] at hinc
    have hlt : (2 : UInt64) < 2 := hinc.1 _ List.mem_cons_self 2 rfl 2 rfl
    exact absurd hlt (by decide)

end OpenDB
