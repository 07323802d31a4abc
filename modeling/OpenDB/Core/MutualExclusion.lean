import OpenDB.Core.LockManager

/-!
# Mutual exclusion

A transaction that holds a resource in exclusive mode should be its only holder. The manager keeps
that except in one case: a transaction that shares a lock with others asks for exclusive mode and is
granted it at once, because a request by a holder is always granted. A run keeps mutual exclusion in
all its states exactly when none of its steps is such an upgrade (`mutualExclusion_iff`).
-/

set_option autoImplicit false

namespace OpenDB

open OpenDB.Library

/-- An exclusive lock has one holder. -/
def MutualExclusion (m : LockManager) : Prop :=
  ∀ key lock, m.held.find key = some lock → lock.mode = .exclusive →
    ∀ txn ∈ lock.holders, lock.holders = [txn]

/-- The step decides the request for an exclusive lock by a transaction that shares the lock with
another one. -/
def UpgradesShared (s : LockSystem) (e : LockEvent) : Prop :=
  ∃ c ∈ s.request e, c.mode = .exclusive ∧ ∃ lock ∈ s.manager.held.find c.key,
    lock.mode = .shared ∧ c.txn ∈ lock.holders ∧ ∃ other ∈ lock.holders, other ≠ c.txn

instance (s : LockSystem) (e : LockEvent) : Decidable (UpgradesShared s e) :=
  inferInstanceAs (Decidable (∃ c ∈ s.request e, c.mode = .exclusive ∧
    ∃ lock ∈ s.manager.held.find c.key, lock.mode = .shared ∧ c.txn ∈ lock.holders ∧
      ∃ other ∈ lock.holders, other ≠ c.txn))

/-- No transaction is listed twice. -/
def DistinctHolders (m : LockManager) : Prop :=
  ∀ key lock, m.held.find key = some lock → lock.holders.Nodup

theorem DistinctHolders.grant {m : LockManager} {txn : UInt64} {key : ResourceKey} {mode : LockMode}
    (hm : DistinctHolders m) (hgrant : m.grantable txn key mode = true) :
    DistinctHolders (m.grant txn key mode) := by
  intro key' lock' hfind'
  by_cases hkey : key' = key
  · subst hkey
    rcases LockManager.find_grant_self hgrant with ⟨-, hfind⟩ | ⟨lock, hlock, hcases⟩
    · rw [hfind] at hfind'
      cases hfind'
      exact List.nodup_singleton txn
    · rcases hcases with ⟨-, -, -, hfind⟩ | ⟨-, -, hfind⟩ | ⟨hnot, -, -, hfind⟩
      · rw [hfind] at hfind'
        cases hfind'
        exact hm key' lock hlock
      · rw [hfind] at hfind'
        cases hfind'
        exact hm key' _ hlock
      · rw [hfind] at hfind'
        cases hfind'
        refine List.nodup_append.2 ⟨hm key' lock hlock, List.nodup_singleton txn, ?_⟩
        rintro x hx y hy rfl
        exact hnot (List.mem_singleton.1 hy ▸ hx)
  · rw [LockManager.find_grant_of_ne hkey] at hfind'
    exact hm key' lock' hfind'

theorem DistinctHolders.release {m : LockManager} {txn : UInt64} (hm : DistinctHolders m) :
    DistinctHolders (m.release txn) := by
  intro key lock hfind
  rw [LockManager.find_release] at hfind
  obtain ⟨lock₀, hlock₀, hrelease⟩ := Option.bind_eq_some_iff.1 hfind
  rw [LockManager.releaseLock_eq_some hrelease]
  exact (hm key lock₀ hlock₀).erase txn

theorem releaseLock_some {txn : UInt64} {lock lock' : Lock}
    (h : LockManager.releaseLock txn lock = some lock') :
    lock'.mode = lock.mode ∧ lock'.holders.Sublist lock.holders := by
  unfold LockManager.releaseLock at h
  dsimp only at h
  split_ifs at h
  · cases h
    exact ⟨rfl, List.erase_sublist⟩
  · cases h
    exact ⟨rfl, List.Sublist.refl _⟩

/-- Every lock after a release was there before, with the same mode and no other holders. -/
theorem find_released {m : LockManager} {txn : UInt64} {key : ResourceKey} {lock' : Lock}
    (h : (m.held.find key).bind (LockManager.releaseLock txn) = some lock') :
    ∃ lock, m.held.find key = some lock ∧ lock'.mode = lock.mode ∧
      lock'.holders.Sublist lock.holders := by
  obtain ⟨lock, hfind, hlock⟩ := Option.bind_eq_some_iff.1 h
  obtain ⟨hmode, hsub⟩ := releaseLock_some hlock
  exact ⟨lock, hfind, hmode, hsub⟩

namespace LockSystem

variable {s s' : LockSystem} {e : LockEvent}

/-- Every lock after a step that grants nothing was there before, with no other holders. -/
theorem step_cases (h : s.step e = some s') :
    (∀ key lock', s'.manager.held.find key = some lock' →
      ∃ lock, s.manager.held.find key = some lock ∧ lock'.mode = lock.mode ∧
        lock'.holders.Sublist lock.holders) ∨
    ∃ c, s.request e = some c ∧ s.manager.grantable c.txn c.key c.mode = true ∧
      s'.manager.held = (s.manager.grant c.txn c.key c.mode).held := by
  rcases step_held h with hsame | hgrant | ⟨txn, key, hrel⟩ | ⟨txn, hrel⟩
  · left
    intro key lock' hfind
    rw [hsame] at hfind
    exact ⟨lock', hfind, rfl, List.Sublist.refl _⟩
  · exact Or.inr hgrant
  · left
    intro key' lock' hfind
    rw [hrel, LockManager.find_releaseKey] at hfind
    split_ifs at hfind with hkey
    · exact find_released hfind
    · exact ⟨lock', hfind, rfl, List.Sublist.refl _⟩
  · left
    intro key lock' hfind
    rw [hrel, LockManager.find_release] at hfind
    exact find_released hfind

theorem step_distinct (h : s.step e = some s') (hs : DistinctHolders s.manager) :
    DistinctHolders s'.manager := by
  intro key lock' hfind
  rcases step_cases h with hold | ⟨c, -, hgrant, hheld⟩
  · obtain ⟨lock, hlock, -, hsub⟩ := hold key lock' hfind
    exact hsub.nodup (hs key lock hlock)
  · rw [hheld] at hfind
    exact hs.grant hgrant key lock' hfind

/-- A step that is not an upgrade of a shared lock keeps mutual exclusion. -/
theorem step_exclusive (h : s.step e = some s') (hdistinct : DistinctHolders s.manager)
    (hs : MutualExclusion s.manager) (hnot : ¬ UpgradesShared s e) :
    MutualExclusion s'.manager := by
  intro key lock' hfind hmode txn htxn
  rcases step_cases h with hold | ⟨c, hc, hgrant, hheld⟩
  · obtain ⟨lock, hlock, hsame, hsub⟩ := hold key lock' hfind
    have hone := hs key lock hlock (hsame ▸ hmode) txn (hsub.subset htxn)
    rw [hone] at hsub
    exact (hsub.eq_of_length_le (List.length_pos_of_mem htxn))
  · rw [hheld] at hfind
    by_cases hkey : key = c.key
    swap
    · rw [LockManager.find_grant_of_ne hkey] at hfind
      exact hs key lock' hfind hmode txn htxn
    subst hkey
    rcases LockManager.find_grant_self hgrant with ⟨-, hnew⟩ | ⟨lock, hlock, hcases⟩
    · rw [hnew] at hfind
      cases hfind
      rw [List.mem_singleton.1 htxn]
    · rcases hcases with ⟨hmem, hex, hshared, hup⟩ | ⟨-, -, hsame⟩ | ⟨-, -, -, hadd⟩
      · -- nobody else holds the lock that is upgraded
        rw [hup] at hfind
        cases hfind
        have halone : ∀ other ∈ lock.holders, other = c.txn := by
          intro other hother
          by_contra hne
          exact hnot ⟨c, hc, hex, lock, hlock, hshared, hmem, other, hother, hne⟩
        rw [halone txn htxn]
        have hrep := List.eq_replicate_of_mem halone
        have hnodup := hdistinct _ lock hlock
        show lock.holders = [c.txn]
        rw [hrep, List.nodup_replicate] at hnodup
        rw [hrep]
        have hpos := List.length_pos_of_mem hmem
        rw [show lock.holders.length = 1 by omega]
        rfl
      · rw [hsame] at hfind
        cases hfind
        exact hs _ lock' hlock hmode txn htxn
      · rw [hadd] at hfind
        cases hfind
        cases hmode

/-- An upgrade of a shared lock breaks mutual exclusion. -/
theorem step_upgrade (h : s.step e = some s') (hup : UpgradesShared s e) :
    ¬ MutualExclusion s'.manager := by
  obtain ⟨c, hc, hex, lock, hlock, hshared, hmem, other, hother, hne⟩ := hup
  rw [Option.mem_def] at hc hlock
  have hgrantable : s.manager.grantable c.txn c.key c.mode = true := by
    rw [LockManager.grantable, hlock]
    simp [hmem]
  -- both a call and a waiter that wakes up end in `grant`
  have hheld : s'.manager.held = (s.manager.grant c.txn c.key c.mode).held := by
    cases e with
    | call c' =>
      cases hc
      cases h
      rw [start, if_pos hgrantable]
    | wake i =>
      obtain ⟨c', hc', rfl⟩ := Option.map_eq_some_iff.1 h
      have hsame : c' = c := Option.some.inj (hc'.symm.trans hc)
      subst hsame
      unfold resume
      dsimp only
      rw [if_pos hgrantable]
      exact LockManager.grant_held_congr rfl
    | timeout i => cases hc
    | releaseKey txn key => cases hc
    | release txn => cases hc
  have hfind : s'.manager.held.find c.key = some ⟨.exclusive, lock.holders⟩ := by
    rw [hheld]
    rcases LockManager.find_grant_self hgrantable with ⟨hnone, -⟩ | ⟨lock', hlock', hcases⟩
    · rw [hlock] at hnone
      cases hnone
    · rw [hlock] at hlock'
      cases hlock'
      rcases hcases with ⟨-, -, -, hup⟩ | ⟨-, hno, -⟩ | ⟨hno, -⟩
      · exact hup
      · exact absurd ⟨hex, hshared⟩ hno
      · exact absurd hmem hno
  -- the other holder is still there
  intro hexcl
  have hone := hexcl c.key _ hfind rfl c.txn hmem
  change lock.holders = [c.txn] at hone
  rw [hone] at hother
  exact hne (List.mem_singleton.1 hother)

end LockSystem

theorem distinctHolders_run {trace : List (LockSystem × LockEvent)} {s : LockSystem}
    (h : LockRun trace s) : DistinctHolders s.manager := by
  refine h.invariant (P := fun s => DistinctHolders s.manager) ?_ ?_
  · intro key lock hfind
    cases hfind
  · intro s e s' hs hstep
    exact LockSystem.step_distinct hstep hs

/-- Mutual exclusion in all states of a run: it holds exactly when no step of the run upgrades a lock
that is shared with another transaction. -/
theorem mutualExclusion_iff {trace : List (LockSystem × LockEvent)} {s : LockSystem}
    (h : LockRun trace s) :
    ((∀ p ∈ trace, MutualExclusion p.1.manager) ∧ MutualExclusion s.manager) ↔
      ∀ p ∈ trace, ¬ UpgradesShared p.1 p.2 := by
  induction h with
  | nil =>
    refine iff_of_true ⟨fun p hp => absurd hp List.not_mem_nil, ?_⟩
      fun p hp => absurd hp List.not_mem_nil
    intro key lock hfind
    cases hfind
  | @snoc trace s s' e hrun hstep ih =>
    have hsplit : (∀ p ∈ trace ++ [(s, e)], MutualExclusion p.1.manager) ↔
        (∀ p ∈ trace, MutualExclusion p.1.manager) ∧ MutualExclusion s.manager := by
      simp [or_imp, forall_and]
    rw [hsplit, ih]
    constructor
    · rintro ⟨htrace, hlast⟩ p hp
      rcases List.mem_append.1 hp with hp | hp
      · exact htrace p hp
      · rw [List.mem_singleton.1 hp]
        exact fun hup => LockSystem.step_upgrade hstep hup hlast
    · intro hall
      have htrace : ∀ p ∈ trace, ¬ UpgradesShared p.1 p.2 :=
        fun p hp => hall p (List.mem_append_left _ hp)
      refine ⟨htrace, ?_⟩
      exact LockSystem.step_exclusive hstep (distinctHolders_run hrun) (ih.2 htrace).2 (hall (s, e) (by simp))

/-- A call on the table `t`. -/
def callOnTable (txn : UInt64) (mode : LockMode) : LockEvent :=
  .call ⟨.acquireKey, txn, tableKey (ascii "t"), mode⟩

/-- Two transactions share a lock, one releases it and the other then upgrades. -/
theorem mutualExclusion_released_upgrade : ∃ trace s, LockRun trace s ∧ trace.length = 4 ∧
    MutualExclusion s.manager ∧
    s.manager.held.find (tableKey (ascii "t")) = some ⟨.exclusive, [2]⟩ := by
  set es := [callOnTable 1 .shared, callOnTable 2 .shared, .release 1, callOnTable 2 .exclusive]
  have hend : ∃ s, (follow LockSystem.step es .new).2 = some s ∧
      s.manager.held.find (tableKey (ascii "t")) = some ⟨.exclusive, [2]⟩ := ⟨_, rfl, by decide⟩
  obtain ⟨s, hs, hlock⟩ := hend
  have hrun := Run.of_follow hs
  exact ⟨_, s, hrun, rfl, ((mutualExclusion_iff hrun).2 (by decide)).2, hlock⟩

/-- Two transactions share a lock and one of them asks for exclusive mode: it is granted, and the
other one still holds the lock. -/
theorem shared_upgrade_breaks_exclusion : ∃ trace s, LockRun trace s ∧
    s.manager.held.find (tableKey (ascii "t")) = some ⟨.exclusive, [1, 2]⟩ ∧
    ¬ MutualExclusion s.manager := by
  set es := [callOnTable 1 .shared, callOnTable 2 .shared, callOnTable 1 .exclusive]
  have hend : ∃ s, (follow LockSystem.step es .new).2 = some s ∧
      s.manager.held.find (tableKey (ascii "t")) = some ⟨.exclusive, [1, 2]⟩ := ⟨_, rfl, by decide⟩
  obtain ⟨s, hs, hlock⟩ := hend
  refine ⟨_, s, Run.of_follow hs, hlock, ?_⟩
  intro hexcl
  have hone := hexcl _ _ hlock rfl 1 (by decide)
  exact absurd hone (by decide)

end OpenDB
