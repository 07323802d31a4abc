import Mathlib.Data.Fintype.Card
import OpenDB.Core.Interleaving
import OpenDB.Core.MutualExclusion
import OpenDB.Core.Protocol

/-!
# The invariant of two-phase locking

Clients that follow the protocol keep an invariant: every client has a stage, and the managers and the
store are what the stages say. The transaction manager has given out the ids of the clients; the lock
manager has the locks of those that are between the grant and the release; the store has staged writes
only of those that are at work with an exclusive lock, and its tables are otherwise what the
statements that have ended make of the tables of the start, one after another.

The parts of the invariant depend on parts of the stages, so that a call is an argument about the parts
it changes.
-/

set_option autoImplicit false

namespace OpenDB

open OpenDB.Library

variable {ι σ A : Type}

namespace Stage

/-- The transaction of the statement. -/
def txn : Stage A → Option UInt64
  | .fresh => none
  | .begun txn | .checked txn | .locked txn _ _ | .marked txn _ _ | .ended txn | .dropped txn => some txn
  | .done txn _ => some txn

/-- The transaction, until the deadlock check. -/
def unchecked : Stage A → Option UInt64
  | .begun txn => some txn
  | _ => none

/-- The transaction, until the transaction manager commits it. -/
def active : Stage A → Option UInt64
  | .begun txn | .checked txn | .locked txn _ _ => some txn
  | _ => none

/-- The transaction manager has not committed the transaction and still may. -/
def unmarked : Stage A → Bool
  | .fresh | .begun _ | .checked _ | .locked _ _ _ => true
  | _ => false

/-- The transaction manager has committed the transaction, the store has not. -/
def isMarked : Stage A → Bool
  | .marked _ _ _ => true
  | _ => false

/-- The transaction, while it has the lock. -/
def holding : Stage A → Option UInt64
  | .locked txn _ _ | .marked txn _ _ | .ended txn => some txn
  | _ => none

/-- The transaction, the state of its table and the goal, while it is at work. -/
def work : Stage A → Option (UInt64 × A × A)
  | .locked txn a goal | .marked txn a goal => some (txn, a, goal)
  | _ => none

/-- The store has committed or aborted the transaction. -/
def isEnded : Stage A → Bool
  | .ended _ | .done _ true => true
  | _ => false

/-- The wait for the lock has run out. -/
def isDropped : Stage A → Bool
  | .dropped _ | .done _ false => true
  | _ => false

variable {st : Stage A} {t : UInt64} {a goal : A}

theorem txn_of_active (h : st.active = some t) : st.txn = some t := by
  cases st <;> first | exact h | cases h

theorem txn_of_holding (h : st.holding = some t) : st.txn = some t := by
  cases st <;> first | exact h | cases h

theorem holding_of_work (h : st.work = some (t, a, goal)) : st.holding = some t := by
  cases st <;> cases h <;> rfl

theorem work_of_locked (h : st = .locked t a goal) : st.work = some (t, a, goal) := by
  rw [h]
  rfl

theorem holding_of_locked (h : st = .locked t a goal) : st.holding = some t := by
  rw [h]
  rfl

theorem txn_of_unchecked (h : st.unchecked = some t) : st.txn = some t := by
  cases st <;> first | exact h | cases h

end Stage

/-! ## Stages of all clients -/

section

variable [DecidableEq ι] {stages : ι → Stage A} {i : ι} {st : Stage A}

/-- A part of the stages that a turn of a client does not change. -/
theorem part_update {γ : Type} (f : Stage A → γ) (h : f st = f (stages i)) :
    (fun j => f (Function.update stages i st j)) = fun j => f (stages j) := by
  funext j
  by_cases hj : j = i
  · rw [hj, Function.update_self, h]
  · rw [Function.update_of_ne hj]

end

/-- How many clients have a property. -/
def countOf [Fintype ι] (p : ι → Bool) : Nat := (Finset.univ.filter fun j => p j = true).card

theorem count_pos [Fintype ι] {p : ι → Bool} {i : ι} (hi : p i = true) : 0 < countOf p :=
  Finset.card_pos.2 ⟨i, by simp [hi]⟩

theorem countOf_mono [Fintype ι] {p q : ι → Bool} (h : ∀ i, p i = true → q i = true) :
    countOf p ≤ countOf q :=
  Finset.card_le_card (Finset.monotone_filter_right _ fun i _ => h i)

/-- One of the clients loses the property. -/
theorem count_update [Fintype ι] [DecidableEq ι] {p : ι → Bool} {i : ι} (hi : p i = true) :
    countOf (Function.update p i false) + 1 = countOf p := by
  have herase : (Finset.univ.filter fun j => Function.update p i false j = true) =
      (Finset.univ.filter fun j => p j = true).erase i := by
    ext j
    by_cases hj : j = i
    · simp [hj]
    · simp [hj]
  rw [countOf, herase]
  exact Finset.card_erase_add_one (by simpa using hi)

/-! ## The transaction manager -/

/-- The ids of the clients are below the counter and distinct, and there is room for the others and for
`room` more. -/
structure Ids [Fintype ι] (nextId : UInt64) (txn : ι → Option UInt64) (room : Nat) : Prop where
  below : ∀ i t, txn i = some t → t.toNat ≤ nextId.toNat
  distinct : ∀ i j t, txn i = some t → txn j = some t → i = j
  space : nextId.toNat + countOf (fun i => (txn i).isNone) + room < 2 ^ 64

/-- The transactions that may still be committed are active. -/
def Actives (states : AssocMap UInt64 TxnState) (active : ι → Option UInt64) : Prop :=
  ∀ i t, active i = some t → states.find t = some .active

/-- The commit counter is not zero once a transaction has been committed, and has room for those that
may still be. -/
structure Marks [Fintype ι] (commitSeq : UInt64) (unmarked marked : ι → Bool) (room : Nat) : Prop where
  positive : ∀ i, marked i = true → commitSeq ≠ 0
  space : commitSeq.toNat + countOf unmarked + room < 2 ^ 64

theorem toNat_add_one {n : UInt64} (h : n.toNat + 1 < 2 ^ 64) : (n + 1).toNat = n.toNat + 1 := by
  rw [UInt64.toNat_add]
  exact Nat.mod_eq_of_lt h

section

variable {txns : TransactionManager} {room : Nat} {i : ι}

/-- The id of a client that begins. -/
theorem Ids.toNat_begin [Fintype ι] {txn : ι → Option UInt64} (h : Ids txns.nextId txn room)
    (hi : txn i = none) : txns.beginTxn.1.toNat = txns.nextId.toNat + 1 := by
  apply toNat_add_one
  have hpos : 0 < countOf fun j => (txn j).isNone := count_pos (by rw [hi]; rfl)
  have hspace := h.space
  omega

/-- Fewer clients that may still be committed, and fewer that have been. -/
theorem Marks.mono [Fintype ι] {commitSeq : UInt64} {unmarked marked unmarked' marked' : ι → Bool}
    (h : Marks commitSeq unmarked marked room) (hunmarked : ∀ i, unmarked' i = true → unmarked i = true)
    (hmarked : ∀ i, marked' i = true → marked i = true) : Marks commitSeq unmarked' marked' room := by
  refine ⟨fun i hi => h.positive i (hmarked i hi), ?_⟩
  have hcount := countOf_mono hunmarked
  have hspace := h.space
  omega

variable [DecidableEq ι]

theorem Ids.begin [Fintype ι] {txn : ι → Option UInt64} (h : Ids txns.nextId txn room)
    (hi : txn i = none) :
    Ids txns.beginTxn.2.nextId (Function.update txn i (some txns.beginTxn.1)) room := by
  have hnext := h.toNat_begin hi
  have hself : txns.beginTxn.2.nextId = txns.beginTxn.1 := rfl
  constructor
  · intro j t hj
    rw [hself, hnext]
    by_cases hji : j = i
    · rw [hji, Function.update_self] at hj
      cases hj
      exact hnext.le
    · rw [Function.update_of_ne hji] at hj
      exact (h.below j t hj).trans (Nat.le_succ _)
  · -- the new id is above all others
    have hnew : ∀ j, txn j ≠ some txns.beginTxn.1 := by
      intro j hj
      have hle := h.below j _ hj
      rw [hnext] at hle
      exact Nat.not_succ_le_self _ hle
    intro j k t hj hk
    by_cases hji : j = i <;> by_cases hki : k = i
    · rw [hji, hki]
    · rw [hji, Function.update_self] at hj
      rw [Function.update_of_ne hki] at hk
      cases hj
      exact absurd hk (hnew k)
    · rw [hki, Function.update_self] at hk
      rw [Function.update_of_ne hji] at hj
      cases hk
      exact absurd hj (hnew j)
    · rw [Function.update_of_ne hji] at hj
      rw [Function.update_of_ne hki] at hk
      exact h.distinct j k t hj hk
  -- one client less has no transaction, one id less is free
  · have hcount := count_update (p := fun j => (txn j).isNone) (i := i) (by rw [hi]; rfl)
    have hsame : (fun j => (Function.update txn i (some txns.beginTxn.1) j).isNone) =
        Function.update (fun j => (txn j).isNone) i false :=
      Function.comp_update Option.isNone txn i _
    have hspace := h.space
    rw [hself, hnext, hsame]
    omega

theorem Actives.begin {active : ι → Option UInt64} (h : Actives txns.states active) :
    Actives txns.beginTxn.2.states (Function.update active i (some txns.beginTxn.1)) := by
  intro j t hj
  by_cases ht : t = txns.beginTxn.1
  · rw [ht]
    exact TransactionManager.find_beginTxn_self
  · have hactive : active j = some t := by
      by_cases hji : j = i
      · rw [hji, Function.update_self] at hj
        cases hj
        exact absurd rfl ht
      · rwa [Function.update_of_ne hji] at hj
    exact (AssocMap.find_assign_of_ne _ _ ht).trans (h j t hactive)

/-- A transaction that is no longer active for its client may change its state. -/
theorem Actives.leave {states states' : AssocMap UInt64 TxnState} {active : ι → Option UInt64}
    {t : UInt64} (h : Actives states active)
    (hdistinct : ∀ j t', active j = some t' → j ≠ i → t' ≠ t)
    (hstates : ∀ t', t' ≠ t → states'.find t' = states.find t') :
    Actives states' (Function.update active i none) := by
  intro j t' hj
  by_cases hji : j = i
  · rw [hji, Function.update_self] at hj
    cases hj
  · rw [Function.update_of_ne hji] at hj
    rw [hstates t' (hdistinct j t' hj hji)]
    exact h j t' hj

/-- The commit of a transaction that is active. -/
theorem Marks.commit [Fintype ι] {unmarked marked : ι → Bool} {t : UInt64}
    (h : Marks txns.commitSeq unmarked marked room) (hi : unmarked i = true)
    (hactive : txns.states.find t = some .active) :
    Marks (txns.commitTxn t).2.commitSeq (Function.update unmarked i false)
      (Function.update marked i true) room := by
  have hseq : (txns.commitTxn t).2.commitSeq = txns.commitSeq + 1 := by
    rw [TransactionManager.commitTxn, if_pos hactive]
  have hpos := count_pos hi
  have hspace := h.space
  have hnat : (txns.commitSeq + 1).toNat = txns.commitSeq.toNat + 1 := toNat_add_one (by omega)
  rw [hseq]
  constructor
  · intro j _ hzero
    rw [hzero] at hnat
    exact absurd hnat (Nat.succ_ne_zero _).symm
  · have hcount := count_update hi
    rw [hnat]
    omega

end

/-! ## The wait queues -/

/-- Who waits has been given an id, and is past the deadlock check. -/
def Queue (waiters : AssocMap ResourceKey (List Waiter)) (nextId : UInt64)
    (unchecked : ι → Option UInt64) : Prop :=
  ∀ key ws, waiters.find key = some ws → ∀ w ∈ ws, w.txn.toNat ≤ nextId.toNat ∧
    ∀ i, unchecked i ≠ some w.txn

section

variable {m : LockManager} {txns : TransactionManager} {nextId t : UInt64}
  {unchecked : ι → Option UInt64} {i : ι} {key : ResourceKey}

/-- A transaction that has just begun waits for nothing. -/
theorem Queue.detectCycle [StandardLibrary] (h : Queue m.waiters nextId unchecked)
    (hi : unchecked i = some t) :
    m.detectCycle t = none := by
  apply LockManager.detectCycle_of_not_waiting
  rintro e he w hw rfl
  exact (h e.1 e.2 (AssocMap.find_of_mem he) w hw).2 i hi

theorem mem_of_dropWaiter {key' : ResourceKey} {ws : List Waiter} {w : Waiter}
    (hfind : (m.dropWaiter key t).waiters.find key' = some ws) (hw : w ∈ ws) :
    ∃ ws', m.waiters.find key' = some ws' ∧ w ∈ ws' := by
  by_cases hkey : key' = key
  · subst hkey
    rw [LockManager.dropWaiter, AssocMap.find_assign_self] at hfind
    cases hfind
    have hmem := List.mem_of_mem_eraseP hw
    cases hold : m.waiters.find key' with
    | none =>
      rw [hold] at hmem
      cases hmem
    | some ws' =>
      rw [hold] at hmem
      exact ⟨ws', rfl, hmem⟩
  · rw [LockManager.dropWaiter, AssocMap.find_assign_of_ne _ _ hkey] at hfind
    exact ⟨ws, hfind, hw⟩

theorem Queue.drop (h : Queue m.waiters nextId unchecked) :
    Queue (m.dropWaiter key t).waiters nextId unchecked := by
  intro key' ws hfind w hw
  obtain ⟨ws', hfind', hw'⟩ := mem_of_dropWaiter hfind hw
  exact h key' ws' hfind' w hw'

theorem Queue.forget (h : Queue m.waiters nextId unchecked) :
    Queue (m.forgetWaiter key t).waiters nextId unchecked := by
  have hdrop : Queue (m.dropWaiter key t).waiters nextId unchecked := h.drop
  unfold LockManager.forgetWaiter
  dsimp only
  split_ifs
  · intro key' ws hfind
    by_cases hkey : key' = key
    · rw [hkey, AssocMap.find_erase_self] at hfind
      cases hfind
    · rw [AssocMap.find_erase_of_ne _ hkey] at hfind
      exact hdrop key' ws hfind
  · exact hdrop

theorem Queue.push {mode : LockMode} (h : Queue m.waiters nextId unchecked)
    (hid : t.toNat ≤ nextId.toNat) (hchecked : ∀ j, unchecked j ≠ some t) :
    Queue (m.pushWaiter key ⟨t, mode⟩).waiters nextId unchecked := by
  intro key' ws hfind w hw
  by_cases hkey : key' = key
  · subst hkey
    rw [LockManager.pushWaiter, AssocMap.find_assign_self] at hfind
    cases hfind
    rcases List.mem_append.1 hw with hold | hnew
    · cases hws : m.waiters.find key' with
      | none =>
        rw [hws] at hold
        cases hold
      | some ws' =>
        rw [hws] at hold
        exact h key' ws' hws w hold
    · rw [List.mem_singleton.1 hnew]
      exact ⟨hid, hchecked⟩
  · rw [LockManager.pushWaiter, AssocMap.find_assign_of_ne _ _ hkey] at hfind
    exact h key' ws hfind w hw

variable [DecidableEq ι]

/-- Nobody waits with the id of a client that begins. -/
theorem Queue.begin (h : Queue m.waiters txns.nextId unchecked)
    (hnext : txns.beginTxn.1.toNat = txns.nextId.toNat + 1) :
    Queue m.waiters txns.beginTxn.2.nextId
      (Function.update unchecked i (some txns.beginTxn.1)) := by
  intro key ws hfind w hw
  obtain ⟨hid, hchecked⟩ := h key ws hfind w hw
  refine ⟨hid.trans ((Nat.le_succ _).trans hnext.ge), fun j hj => ?_⟩
  by_cases hji : j = i
  · rw [hji, Function.update_self] at hj
    have heq : txns.beginTxn.1 = w.txn := Option.some.inj hj
    rw [← heq, hnext] at hid
    exact Nat.not_succ_le_self _ hid
  · rw [Function.update_of_ne hji] at hj
    exact hchecked j hj

theorem Queue.check (h : Queue m.waiters nextId unchecked) :
    Queue m.waiters nextId (Function.update unchecked i none) := by
  intro key ws hfind w hw
  refine ⟨(h key ws hfind w hw).1, fun j hj => ?_⟩
  by_cases hji : j = i
  · rw [hji, Function.update_self] at hj
    cases hj
  · rw [Function.update_of_ne hji] at hj
    exact (h key ws hfind w hw).2 j hj

end

/-! ## The locks -/

/-- The locks are those of the clients that hold one, in the modes they have asked for. -/
structure Holding (m : LockManager) (job : ι → Job A) (holding : ι → Option UInt64) : Prop where
  granted : ∀ i t, holding i = some t → ∃ lock, m.held.find (tableKey (job i).table) = some lock ∧
    t ∈ lock.holders ∧ lock.mode = (job i).mode
  holder : ∀ key lock t, m.held.find key = some lock → t ∈ lock.holders →
    ∃ i, holding i = some t ∧ key = tableKey (job i).table
  exclusive : MutualExclusion m
  distinct : DistinctHolders m
  occupied : ∀ key lock, m.held.find key = some lock → lock.holders ≠ []

section

variable {m : LockManager} {job : ι → Job A} {holding : ι → Option UInt64} {i : ι} {t : UInt64}

theorem Holding.congr {m' : LockManager} (h : Holding m job holding) (hheld : m'.held = m.held) :
    Holding m' job holding := by
  obtain ⟨hgranted, hholder, hexclusive, hdistinct, hoccupied⟩ := h
  constructor
  · rwa [hheld]
  · rwa [hheld]
  · unfold MutualExclusion
    rwa [hheld]
  · unfold DistinctHolders
    rwa [hheld]
  · rwa [hheld]

/-- Who holds an exclusive lock holds it alone. -/
theorem Holding.alone {j : ι} {t' : UInt64} (h : Holding m job holding) (hi : holding i = some t)
    (hj : holding j = some t') (htable : (job i).table = (job j).table)
    (hmode : (job i).mode = .exclusive) : t' = t := by
  obtain ⟨lock, hfind, hmem, hlock⟩ := h.granted i t hi
  obtain ⟨lock', hfind', hmem', -⟩ := h.granted j t' hj
  rw [← htable, hfind] at hfind'
  cases hfind'
  have hone := h.exclusive _ lock hfind (hlock.trans hmode) t hmem
  rw [hone] at hmem'
  exact List.mem_singleton.1 hmem'

theorem Holding.isGrantedKey (h : Holding m job holding) (hi : holding i = some t) :
    m.isGrantedKey t (tableKey (job i).table) = true := by
  obtain ⟨lock, hfind, hmem, -⟩ := h.granted i t hi
  rw [LockManager.isGrantedKey, hfind]
  exact decide_eq_true hmem

theorem Holding.isExclusiveKey (h : Holding m job holding) (hi : holding i = some t)
    (hmode : (job i).mode = .exclusive) :
    m.isExclusiveKey t (tableKey (job i).table) = true := by
  obtain ⟨lock, hfind, hmem, hlock⟩ := h.granted i t hi
  rw [LockManager.isExclusiveKey, hfind]
  exact decide_eq_true ⟨hlock.trans hmode, hmem⟩

/-- When nobody holds a lock, all resources are free. -/
theorem Holding.find_eq_none (h : Holding m job holding) (hnone : ∀ i, holding i = none)
    (key : ResourceKey) : m.held.find key = none := by
  cases hfind : m.held.find key with
  | none => rfl
  | some lock =>
    obtain ⟨t, ht⟩ := List.exists_mem_of_ne_nil _ (h.occupied key lock hfind)
    obtain ⟨i, hi, -⟩ := h.holder key lock t hfind ht
    rw [hnone i] at hi
    cases hi

theorem Holding.grantable (h : Holding m job holding) (hnone : ∀ i, holding i = none)
    (key : ResourceKey) (mode : LockMode) : m.grantable t key mode = true := by
  rw [LockManager.grantable, h.find_eq_none hnone key]

/-- The lock of a resource after the grant to a transaction that holds nothing: it has one holder more,
and is not exclusive if there were others. -/
theorem Holding.find_grant {mode : LockMode} {key : ResourceKey} (h : Holding m job holding)
    (hnot : ∀ j, holding j ≠ some t) (hgrant : m.grantable t key mode = true) :
    ∃ old, (m.grant t key mode).held.find key = some ⟨mode, old ++ [t]⟩ ∧
      (mode = .exclusive → old = []) ∧
      (∀ t' ∈ old, ∃ lock, m.held.find key = some lock ∧ t' ∈ lock.holders) ∧
      ∀ lock, m.held.find key = some lock → lock = ⟨mode, old⟩ := by
  have hfree : ∀ lock, m.held.find key = some lock → t ∉ lock.holders := by
    intro lock hfind hmem
    obtain ⟨j, hj, -⟩ := h.holder key lock t hfind hmem
    exact hnot j hj
  rcases LockManager.find_grant_self hgrant with ⟨hnone, hnew⟩ | ⟨lock, hfind, hcases⟩
  · refine ⟨[], hnew, fun _ => rfl,
      fun t' ht' => absurd ht' List.not_mem_nil, ?_⟩
    intro lock hfind
    rw [hnone] at hfind
    cases hfind
  · rcases hcases with ⟨hmem, -⟩ | ⟨hmem, -⟩ | ⟨hmem, rfl, hshared, hadd⟩
    · exact absurd hmem (hfree lock hfind)
    · exact absurd hmem (hfree lock hfind)
    · refine ⟨lock.holders, hadd, fun hmode => absurd hmode (by decide),
        fun t' ht' => ⟨lock, hfind, ht'⟩, fun lock' hfind' => ?_⟩
      rw [hfind] at hfind'
      cases hfind'
      rw [← hshared]

variable [DecidableEq ι]

/-- A transaction that holds nothing is granted the lock of its table. -/
theorem Holding.grant (h : Holding m job holding) (hi : holding i = none)
    (hnot : ∀ j, holding j ≠ some t)
    (hgrant : m.grantable t (tableKey (job i).table) (job i).mode = true) :
    Holding (m.grant t (tableKey (job i).table) (job i).mode) job
      (Function.update holding i (some t)) := by
  obtain ⟨old, hnew, halone, hold, hlock⟩ := h.find_grant hnot hgrant
  have hother : ∀ {key}, key ≠ tableKey (job i).table →
      (m.grant t (tableKey (job i).table) (job i).mode).held.find key = m.held.find key :=
    fun hkey => LockManager.find_grant_of_ne hkey
  -- the client had no lock before, so the others keep theirs
  have hkeep : ∀ {j t'}, holding j = some t' → Function.update holding i (some t) j = some t' := by
    intro j t' hj
    have hji : j ≠ i := by
      rintro rfl
      rw [hi] at hj
      cases hj
    rw [Function.update_of_ne hji, hj]
  constructor
  · intro j t' hj
    by_cases hji : j = i
    · rw [hji, Function.update_self] at hj
      cases hj
      rw [hji]
      exact ⟨_, hnew, List.mem_append_right _ List.mem_cons_self, rfl⟩
    · rw [Function.update_of_ne hji] at hj
      obtain ⟨lock, hfind, hmem, hmode⟩ := h.granted j t' hj
      by_cases hkey : tableKey (job j).table = tableKey (job i).table
      · rw [hkey] at hfind ⊢
        have hsame := hlock lock hfind
        rw [hsame] at hmem hmode
        exact ⟨_, hnew, List.mem_append_left _ hmem, hmode⟩
      · exact ⟨lock, (hother hkey).trans hfind, hmem, hmode⟩
  -- a holder of the lock is an old one, or the client
  · intro key lock t' hfind hmem
    by_cases hkey : key = tableKey (job i).table
    · rw [hkey, hnew] at hfind
      cases hfind
      rcases List.mem_append.1 hmem with hmem | hmem
      · obtain ⟨lock, hfind, hmem⟩ := hold t' hmem
        obtain ⟨j, hj, htable⟩ := h.holder _ lock t' hfind hmem
        exact ⟨j, hkeep hj, hkey.trans htable⟩
      · rw [List.mem_singleton.1 hmem]
        exact ⟨i, Function.update_self _ _ _, hkey⟩
    · rw [hother hkey] at hfind
      obtain ⟨j, hj, htable⟩ := h.holder key lock t' hfind hmem
      exact ⟨j, hkeep hj, htable⟩
  -- an exclusive lock was granted to the client alone
  · intro key lock hfind hmode t' ht'
    by_cases hkey : key = tableKey (job i).table
    · rw [hkey, hnew] at hfind
      cases hfind
      have hnil : old = [] := halone hmode
      subst hnil
      rw [List.mem_singleton.1 ht']
      rfl
    · rw [hother hkey] at hfind
      exact h.exclusive key lock hfind hmode t' ht'
  · exact h.distinct.grant hgrant
  · intro key lock hfind
    by_cases hkey : key = tableKey (job i).table
    · rw [hkey, hnew] at hfind
      cases hfind
      exact List.append_ne_nil_of_right_ne_nil _ (List.cons_ne_nil _ _)
    · rw [hother hkey] at hfind
      exact h.occupied key lock hfind

/-- What a release leaves of a lock that has holders: the others, and there are some. -/
theorem releaseLock_others {lock lock' : Lock} (hnodup : lock.holders.Nodup)
    (hlock : LockManager.releaseLock t lock = some lock') (hne : lock.holders ≠ []) :
    lock'.mode = lock.mode ∧ lock'.holders ≠ [] ∧
      ∀ t', t' ∈ lock'.holders ↔ t' ≠ t ∧ t' ∈ lock.holders := by
  refine ⟨(releaseLock_some hlock).1, fun hnil => ?_, fun t' => ?_⟩
  · unfold LockManager.releaseLock at hlock
    dsimp only at hlock
    split_ifs at hlock with hmem hempty
    · cases hlock
      exact hempty (List.isEmpty_iff.2 hnil)
    · cases hlock
      exact hne hnil
  · rw [LockManager.releaseLock_eq_some hlock]
    exact hnodup.mem_erase_iff

/-- A transaction gives its lock back. -/
theorem Holding.release (h : Holding m job holding) (hi : holding i = some t)
    (hdistinct : ∀ j, holding j = some t → j = i) :
    Holding (m.release t) job (Function.update holding i none) := by
  -- every lock that is left has lost at most this holder
  have hleft : ∀ {key lock'}, (m.release t).held.find key = some lock' →
      ∃ lock, m.held.find key = some lock ∧ lock'.mode = lock.mode ∧ lock'.holders ≠ [] ∧
        ∀ t', t' ∈ lock'.holders ↔ t' ≠ t ∧ t' ∈ lock.holders := by
    intro key lock' hfind
    rw [LockManager.find_release] at hfind
    obtain ⟨lock, hlock, hrelease⟩ := Option.bind_eq_some_iff.1 hfind
    exact ⟨lock, hlock,
      releaseLock_others (h.distinct key lock hlock) hrelease (h.occupied key lock hlock)⟩
  constructor
  · intro j t' hj
    have hji : j ≠ i := by
      rintro rfl
      rw [Function.update_self] at hj
      cases hj
    rw [Function.update_of_ne hji] at hj
    obtain ⟨lock, hfind, hmem, hmode⟩ := h.granted j t' hj
    have hne : t' ≠ t := by
      rintro rfl
      exact hji (hdistinct j hj)
    cases hrelease : LockManager.releaseLock t lock with
    | none =>
      -- nobody else held the lock
      exfalso
      unfold LockManager.releaseLock at hrelease
      dsimp only at hrelease
      split_ifs at hrelease with hin hempty
      have hleft : t' ∈ lock.holders.erase t := (List.mem_erase_of_ne hne).2 hmem
      rw [List.isEmpty_iff.1 hempty] at hleft
      cases hleft
    | some lock' =>
      have hkept := releaseLock_others (h.distinct _ lock hfind) hrelease (h.occupied _ lock hfind)
      refine ⟨lock', ?_, (hkept.2.2 t').2 ⟨hne, hmem⟩, hkept.1.trans hmode⟩
      rw [LockManager.find_release, hfind]
      exact hrelease
  · intro key lock' t' hfind hmem
    obtain ⟨lock, hlock, -, -, hmem_iff⟩ := hleft hfind
    obtain ⟨hne, hold⟩ := (hmem_iff t').1 hmem
    obtain ⟨j, hj, htable⟩ := h.holder key lock t' hlock hold
    have hji : j ≠ i := by
      rintro rfl
      rw [hi] at hj
      exact hne (Option.some.inj hj).symm
    exact ⟨j, by rw [Function.update_of_ne hji, hj], htable⟩
  · intro key lock' hfind hmode t' ht'
    rw [LockManager.find_release] at hfind
    obtain ⟨lock, hlock, hsame, hsub⟩ := find_released hfind
    have hone := h.exclusive key lock hlock (hsame ▸ hmode) t' (hsub.subset ht')
    rw [hone] at hsub
    exact hsub.eq_of_length_le (List.length_pos_of_mem ht')
  · exact h.distinct.release
  · intro key lock' hfind
    obtain ⟨-, -, -, hne, -⟩ := hleft hfind
    exact hne

end

/-! ## The store -/

/-- Two clients are at work on the same table only if their locks are shared. -/
def Exclusion (job : ι → Job A) (work : ι → Option (UInt64 × A × A)) : Prop :=
  ∀ i j, (work i).isSome = true → (work j).isSome = true → (job i).table = (job j).table →
    (job i).mode = .exclusive → j = i

variable {P : StorageProvider σ}

/-- The tables of the store: `now` is what they are and `base` what the statements that have ended have
made of them. A client at work is the only one that has changed its table. -/
structure Stored (L : Isolation P A) (job : ι → Job A) (store : σ) (owner : Bytes → Option UInt64)
    (now base : Bytes → A) (work : ι → Option (UInt64 × A × A)) : Prop where
  rep : L.Rep store owner now
  atWork : ∀ i t a goal, work i = some (t, a, goal) →
    now (job i).table = a ∧ goal = (job i).effect (base (job i).table)
  owned : ∀ table t, owner table = some t →
    ∃ i a goal, work i = some (t, a, goal) ∧ table = (job i).table ∧ (job i).mode = .exclusive
  quiet : ∀ table, (∀ i, (work i).isSome = true → (job i).table = table → (job i).mode = .shared) →
    now table = base table

section

variable {L : Isolation P A} {job : ι → Job A} {store store' : σ} {owner : Bytes → Option UInt64}
  {now base : Bytes → A} {work : ι → Option (UInt64 × A × A)} {i : ι} {t : UInt64} {a goal : A}

/-- A client at work may touch its table. -/
theorem Stored.access (h : Stored L job store owner now base work) (hexcl : Exclusion job work)
    (hi : work i = some (t, a, goal)) :
    owner (job i).table = none ∨ owner (job i).table = some t := by
  cases howner : owner (job i).table with
  | none => exact Or.inl rfl
  | some t' =>
    obtain ⟨j, b, goal', hj, htable, hmode⟩ := h.owned _ t' howner
    have hij : i = j := hexcl j i (by rw [hj]; rfl) (by rw [hi]; rfl) htable.symm hmode
    subst hij
    rw [hi] at hj
    cases hj
    exact Or.inr rfl

/-- A table on which all clients at work have a shared lock has no staged writes. -/
theorem Stored.unowned (h : Stored L job store owner now base work) {table : Bytes}
    (hshared : ∀ i, (work i).isSome = true → (job i).table = table → (job i).mode = .shared) :
    owner table = none := by
  cases howner : owner table with
  | none => rfl
  | some t =>
    obtain ⟨j, b, goal, hj, htable, hmode⟩ := h.owned table t howner
    have hmode' := hshared j (by rw [hj]; rfl) htable.symm
    rw [hmode] at hmode'
    cases hmode'

theorem Stored.read (h : Stored L job store owner now base work) (hrep : L.Rep store' owner now) :
    Stored L job store' owner now base work :=
  ⟨hrep, h.atWork, h.owned, h.quiet⟩

variable [DecidableEq ι]

/-- A client gets its lock: it finds the table as the statements before it have left it. -/
theorem Stored.grant (h : Stored L job store owner now base work) (hi : work i = none)
    (hexcl : Exclusion job (Function.update work i
      (some (t, now (job i).table, (job i).effect (now (job i).table))))) :
    Stored L job store owner now base (Function.update work i
      (some (t, now (job i).table, (job i).effect (now (job i).table)))) := by
  have hkeep : ∀ {j}, (work j).isSome = true → j ≠ i := by
    rintro j hj rfl
    rw [hi] at hj
    cases hj
  -- nobody at work on the table has an exclusive lock, or the new one would not have been granted
  have hbase : now (job i).table = base (job i).table := by
    apply h.quiet
    intro j hj htable
    have hji := hkeep hj
    by_contra hmode
    have hexclusive : (job j).mode = .exclusive := by
      cases hj : (job j).mode with
      | shared => exact absurd hj hmode
      | exclusive => rfl
    have heq := hexcl j i (by rw [Function.update_of_ne hji]; exact hj)
      (by rw [Function.update_self]; rfl) htable hexclusive
    exact hji heq.symm
  constructor
  · exact h.rep
  · intro j t' b goal' hj
    by_cases hji : j = i
    · rw [hji, Function.update_self] at hj
      cases hj
      rw [hji]
      exact ⟨rfl, by rw [hbase]⟩
    · rw [Function.update_of_ne hji] at hj
      exact h.atWork j t' b goal' hj
  · intro table t' howner
    obtain ⟨j, b, goal', hj, htable, hmode⟩ := h.owned table t' howner
    have hji : j ≠ i := hkeep (by rw [hj]; rfl)
    exact ⟨j, b, goal', by rw [Function.update_of_ne hji, hj], htable, hmode⟩
  · intro table hshared
    apply h.quiet
    intro j hj htable
    have hji := hkeep hj
    exact hshared j (by rw [Function.update_of_ne hji]; exact hj) htable

/-- A write of a client at work. -/
theorem Stored.write (h : Stored L job store owner now base work) (hexcl : Exclusion job work)
    (hi : work i = some (t, a, goal)) (hmode : (job i).mode = .exclusive) {a' : A}
    (hrep : L.Rep store' (setTable owner (job i).table (some t)) (setTable now (job i).table a')) :
    Stored L job store' (setTable owner (job i).table (some t)) (setTable now (job i).table a') base
      (Function.update work i (some (t, a', goal))) := by
  have hsome : (work i).isSome = true := by rw [hi]; rfl
  constructor
  · exact hrep
  · intro j t' b goal' hj
    by_cases hji : j = i
    · rw [hji, Function.update_self] at hj
      cases hj
      rw [hji, setTable_self]
      exact ⟨rfl, (h.atWork i t a goal hi).2⟩
    · rw [Function.update_of_ne hji] at hj
      -- nobody else is at work on the table of an exclusive job
      have htable : (job j).table ≠ (job i).table :=
        fun heq => hji (hexcl i j hsome (by rw [hj]; rfl) heq.symm hmode)
      rw [setTable_of_ne _ _ htable]
      exact h.atWork j t' b goal' hj
  · intro table t' howner
    by_cases htable : table = (job i).table
    · rw [htable, setTable_self] at howner
      cases howner
      exact ⟨i, a', goal, Function.update_self _ _ _, htable, hmode⟩
    · rw [setTable_of_ne _ _ htable] at howner
      obtain ⟨j, b, goal', hj, htable', hmode'⟩ := h.owned table t' howner
      have hji : j ≠ i := by
        rintro rfl
        exact htable htable'
      exact ⟨j, b, goal', by rw [Function.update_of_ne hji, hj], htable', hmode'⟩
  -- the table of an exclusive job is not one that is only read
  · intro table hshared
    have htable : table ≠ (job i).table := by
      rintro rfl
      have hmode' := hshared i (by rw [Function.update_self]; rfl) rfl
      rw [hmode] at hmode'
      cases hmode'
    rw [setTable_of_ne _ _ htable]
    apply h.quiet
    intro j hj htable'
    have hji : j ≠ i := by
      rintro rfl
      exact htable htable'.symm
    exact hshared j (by rw [Function.update_of_ne hji]; exact hj) htable'

/-- The commit or the abort of a client at work: its table is what its statement makes of the table
that the statements before it have left. -/
theorem Stored.finish (h : Stored L job store owner now base work) (hexcl : Exclusion job work)
    (hi : work i = some (t, a, goal)) (hdistinct : ∀ j b c, work j = some (t, b, c) → j = i)
    {f : A → A} (hclean : ∀ {b}, L.Clean b → f b = b) (hgoal : f a = goal)
    (hrep : L.Rep store' (disown t owner) (onOwned t owner f now)) :
    Stored L job store' (disown t owner) (onOwned t owner f now)
      (setTable base (job i).table goal) (Function.update work i none) := by
  obtain ⟨hnow, heffect⟩ := h.atWork i t a goal hi
  have hsome : (work i).isSome = true := by rw [hi]; rfl
  have hself : onOwned t owner f now (job i).table = goal := by
    unfold onOwned
    rcases h.access hexcl hi with hnone | hown
    · -- the client has written nothing
      rw [if_neg (by rw [hnone]; exact Option.some_ne_none _ ∘ Eq.symm), ← hgoal, hnow]
      have hcl := L.clean_of_rep h.rep hnone
      rw [hnow] at hcl
      exact (hclean hcl).symm
    · rw [if_pos hown, hnow, hgoal]
  have hother : ∀ {table}, table ≠ (job i).table → onOwned t owner f now table = now table := by
    intro table htable
    refine if_neg fun hown => ?_
    obtain ⟨j, b, c, hj, htable', -⟩ := h.owned table t hown
    rw [hdistinct j b c hj] at htable'
    exact htable htable'
  constructor
  · exact hrep
  · intro j t' b goal' hj
    have hji : j ≠ i := by
      rintro rfl
      rw [Function.update_self] at hj
      cases hj
    rw [Function.update_of_ne hji] at hj
    obtain ⟨hnow', heffect'⟩ := h.atWork j t' b goal' hj
    by_cases htable : (job j).table = (job i).table
    · -- both locks are shared, so that neither client has changed the table
      have hshared : ∀ k, (work k).isSome = true → (job k).table = (job i).table →
          (job k).mode = .shared := by
        intro k hk hkt
        cases hmode : (job k).mode with
        | shared => rfl
        | exclusive =>
          have hik := hexcl k i hk hsome hkt hmode
          have hjk := hexcl k j hk (by rw [hj]; rfl) (hkt.trans htable.symm) hmode
          exact absurd (hjk.trans hik.symm) hji
      have hcl := L.clean_of_rep h.rep (h.unowned hshared)
      rw [hnow] at hcl
      have hsame : goal = a := hgoal.symm.trans (hclean hcl)
      have hquiet := h.quiet _ hshared
      rw [htable] at hnow' heffect' ⊢
      rw [hself, setTable_self, hsame]
      refine ⟨hnow.symm.trans hnow', ?_⟩
      rw [heffect', ← hquiet, hnow]
    · rw [hother htable, setTable_of_ne _ _ htable]
      exact ⟨hnow', heffect'⟩
  · intro table t' howner
    unfold disown at howner
    split_ifs at howner with hown
    obtain ⟨j, b, c, hj, htable, hmode⟩ := h.owned table t' howner
    have hji : j ≠ i := by
      rintro rfl
      rw [hi] at hj
      cases hj
      exact hown howner
    exact ⟨j, b, c, by rw [Function.update_of_ne hji, hj], htable, hmode⟩
  · intro table hshared
    by_cases htable : table = (job i).table
    · rw [htable, hself, setTable_self]
    · rw [hother htable, setTable_of_ne _ _ htable]
      apply h.quiet
      intro j hj htable'
      have hji : j ≠ i := by
        rintro rfl
        exact htable htable'.symm
      exact hshared j (by rw [Function.update_of_ne hji]; exact hj) htable'

end

/-! ## The order of the statements -/

/-- The tables after the statements of a list, one after another. -/
def replay (job : ι → Job A) (base : Bytes → A) (order : List ι) : Bytes → A :=
  order.foldl (fun b i => setTable b (job i).table ((job i).effect (b (job i).table))) base

theorem replay_concat (job : ι → Job A) (base : Bytes → A) (i : ι) (order : List ι) :
    replay job base (order ++ [i]) = setTable (replay job base order) (job i).table
      ((job i).effect (replay job base order (job i).table)) := by
  rw [replay, List.foldl_concat]
  rfl

/-- The statements that have ended, in the order of their ends. -/
structure Replayed (job : ι → Job A) (start base : Bytes → A) (order : List ι) (ended : ι → Bool) :
    Prop where
  base_eq : base = replay job start order
  nodup : order.Nodup
  mem : ∀ i, i ∈ order ↔ ended i = true

theorem Replayed.finish [DecidableEq ι] {job : ι → Job A} {start base : Bytes → A} {order : List ι}
    {ended : ι → Bool} {i : ι} (h : Replayed job start base order ended) (hi : ended i = false) :
    Replayed job start (setTable base (job i).table ((job i).effect (base (job i).table)))
      (order ++ [i]) (Function.update ended i true) := by
  have hnot : i ∉ order := by
    rw [h.mem i, hi]
    exact Bool.false_ne_true
  constructor
  · rw [replay_concat, ← h.base_eq]
  · rw [List.nodup_append]
    refine ⟨h.nodup, List.nodup_singleton _, ?_⟩
    rintro a ha b hb rfl
    rw [List.mem_singleton.1 hb] at ha
    exact hnot ha
  · intro j
    by_cases hji : j = i
    · rw [hji, Function.update_self]
      exact ⟨fun _ => rfl, fun _ => List.mem_append_right _ List.mem_cons_self⟩
    · rw [Function.update_of_ne hji, ← h.mem j, List.mem_append, List.mem_singleton]
      exact ⟨fun hj => hj.resolve_right hji, Or.inl⟩

end OpenDB
