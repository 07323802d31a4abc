import OpenDB.Library.AssocList
import OpenDB.Library.Trace
import OpenDB.Types.Decoder

/-!
# The lock manager

Shared and exclusive locks on tables and rows. A request is granted when nobody holds the resource,
when the transaction holds it already in whatever mode, or when both the request and the lock are
shared; otherwise the caller waits.

The calls of the threads run one at a time under the mutex, but a call that waits gives the mutex up.
`LockSystem` is the manager together with the calls that wait, and `LockSystem.step` is one
uninterrupted piece of a call: up to its end, or up to its next wait. A waiting call may run on at any
time, since a condition variable may wake up without reason, and a bounded one may time out at any
time.
-/

set_option autoImplicit false

namespace OpenDB

open OpenDB.Library

inductive LockMode where
  | shared | exclusive
  deriving DecidableEq, Repr

/-- A table, or a row of it; the key of a table is empty. -/
abbrev ResourceKey := Bytes × Bytes

/-- `tableKey`. -/
def tableKey (table : Bytes) : ResourceKey := (table, [])

structure Lock where
  mode : LockMode
  holders : List UInt64
  deriving DecidableEq

structure Waiter where
  txn : UInt64
  mode : LockMode
  deriving DecidableEq

structure LockManager where
  held : AssocMap ResourceKey Lock
  waiters : AssocMap ResourceKey (List Waiter)
  deriving DecidableEq

namespace LockManager

def new : LockManager := ⟨.empty, .empty⟩

/-- `grantableUnlocked`. -/
def grantable (m : LockManager) (txn : UInt64) (key : ResourceKey) (mode : LockMode) : Bool :=
  match m.held.find key with
  | none => true
  | some lock =>
    decide (txn ∈ lock.holders) || decide (mode = .shared ∧ lock.mode = .shared)

/-- `grantUnlocked`. -/
def grant (m : LockManager) (txn : UInt64) (key : ResourceKey) (mode : LockMode) : LockManager :=
  match m.held.find key with
  | none => { m with held := m.held.assign key ⟨mode, [txn]⟩ }
  | some lock =>
    if txn ∈ lock.holders then
      if mode = .exclusive ∧ lock.mode = .shared then
        { m with held := m.held.assign key { lock with mode := .exclusive } }
      else m
    else
      let lock := if mode = .exclusive then ⟨.exclusive, []⟩ else lock
      { m with held := m.held.assign key { lock with holders := lock.holders ++ [txn] } }

/-- The lock without one of its holders; a lock that nobody holds is dropped. -/
def releaseLock (txn : UInt64) (lock : Lock) : Option Lock :=
  if txn ∈ lock.holders then
    let holders := lock.holders.erase txn
    if holders.isEmpty then none else some { lock with holders := holders }
  else some lock

/-- `releaseKey`. -/
def releaseKey (m : LockManager) (txn : UInt64) (key : ResourceKey) : LockManager :=
  match m.held.find key with
  | none => m
  | some lock =>
    match releaseLock txn lock with
    | none => { m with held := m.held.erase key }
    | some lock => { m with held := m.held.assign key lock }

/-- `release`. -/
def release (m : LockManager) (txn : UInt64) : LockManager :=
  { m with held := m.held.filterMapValues (releaseLock txn) }

/-- `isGrantedKey`. -/
def isGrantedKey (m : LockManager) (txn : UInt64) (key : ResourceKey) : Bool :=
  match m.held.find key with
  | none => false
  | some lock => decide (txn ∈ lock.holders)

/-- `waiters_[key].push_back`. -/
def pushWaiter (m : LockManager) (key : ResourceKey) (w : Waiter) : LockManager :=
  { m with waiters := m.waiters.assign key ((m.waiters.find key).getD [] ++ [w]) }

/-- The first entry of the transaction leaves the wait queue. -/
def dropWaiter (m : LockManager) (key : ResourceKey) (txn : UInt64) : LockManager :=
  { m with waiters :=
      m.waiters.assign key (((m.waiters.find key).getD []).eraseP fun w => w.txn == txn) }

/-- The same, and an empty queue is dropped. -/
def forgetWaiter (m : LockManager) (key : ResourceKey) (txn : UInt64) : LockManager :=
  let m := m.dropWaiter key txn
  if (m.waiters.find key).getD [] = [] then { m with waiters := m.waiters.erase key } else m

end LockManager

/-! ## Interleaved calls -/

inductive CallKind where
  | acquireKey | tryAcquireKey
  deriving DecidableEq, Repr

/-- A call that asks for a lock. -/
structure LockCall where
  kind : CallKind
  txn : UInt64
  key : ResourceKey
  mode : LockMode
  deriving DecidableEq

/-- The manager and the calls that wait. -/
structure LockSystem where
  manager : LockManager
  waiting : List LockCall

/-- One piece of a call: a new call, a waiting call that runs on, one that times out, a release. -/
inductive LockEvent where
  | call (c : LockCall)
  | wake (i : Nat)
  | timeout (i : Nat)
  | releaseKey (txn : UInt64) (key : ResourceKey)
  | release (txn : UInt64)

namespace LockSystem

def new : LockSystem := ⟨.new, []⟩

/-- A new call: it is granted, or it waits. -/
def start (s : LockSystem) (c : LockCall) : LockSystem :=
  if s.manager.grantable c.txn c.key c.mode then
    { s with manager := s.manager.grant c.txn c.key c.mode }
  else ⟨s.manager.pushWaiter c.key ⟨c.txn, c.mode⟩, s.waiting ++ [c]⟩

/-- A waiting call that runs on. `acquireKey` leaves the wait queue and may join it again,
`tryAcquireKey` stays in it until it is granted. -/
def resume (s : LockSystem) (i : Nat) (c : LockCall) : LockSystem :=
  let left := s.manager.dropWaiter c.key c.txn
  if s.manager.grantable c.txn c.key c.mode then
    ⟨left.grant c.txn c.key c.mode, s.waiting.eraseIdx i⟩
  else
    match c.kind with
    | .acquireKey => { s with manager := left.pushWaiter c.key ⟨c.txn, c.mode⟩ }
    | .tryAcquireKey => s

/-- One step; `none` when there is no such waiting call, or when it has no bound. -/
def step (s : LockSystem) : LockEvent → Option LockSystem
  | .call c => some (s.start c)
  | .wake i => (s.waiting[i]?).map (s.resume i)
  | .timeout i =>
    match s.waiting[i]? with
    | some ⟨.tryAcquireKey, txn, key, _⟩ =>
      some ⟨s.manager.forgetWaiter key txn, s.waiting.eraseIdx i⟩
    | _ => none
  | .releaseKey txn key => some { s with manager := s.manager.releaseKey txn key }
  | .release txn => some { s with manager := s.manager.release txn }

/-- The request that a step decides. -/
def request (s : LockSystem) : LockEvent → Option LockCall
  | .call c => some c
  | .wake i => s.waiting[i]?
  | _ => none

end LockSystem

/-- The runs of a new manager. -/
abbrev LockRun := Run LockSystem.step LockSystem.new

/-! ## What a step does to the locks -/

namespace LockManager

variable {m : LockManager} {txn : UInt64} {key : ResourceKey} {mode : LockMode}

theorem grant_held_congr {m' : LockManager} (h : m'.held = m.held) :
    (m'.grant txn key mode).held = (m.grant txn key mode).held := by
  unfold grant
  rw [h]
  split
  · rfl
  · split_ifs <;> first | rfl | exact h

@[simp] theorem held_pushWaiter (w : Waiter) : (m.pushWaiter key w).held = m.held := rfl

@[simp] theorem held_dropWaiter : (m.dropWaiter key txn).held = m.held := rfl

@[simp] theorem held_forgetWaiter : (m.forgetWaiter key txn).held = m.held := by
  unfold forgetWaiter
  dsimp only
  split_ifs <;> rfl

/-- The lock of a resource after a release of one of its holders. -/
theorem find_releaseKey (key' : ResourceKey) :
    (m.releaseKey txn key).held.find key' =
      if key' = key then (m.held.find key').bind (releaseLock txn) else m.held.find key' := by
  unfold releaseKey
  by_cases hkey : key' = key
  · subst hkey
    rw [if_pos rfl]
    cases hfind : m.held.find key' with
    | none => exact hfind
    | some lock =>
      rw [Option.bind_some]
      dsimp only
      cases hlock : releaseLock txn lock with
      | none => exact AssocMap.find_erase_self _ _
      | some lock' => exact AssocMap.find_assign_self _ _ _
  · rw [if_neg hkey]
    cases hfind : m.held.find key with
    | none => rfl
    | some lock =>
      dsimp only
      cases hlock : releaseLock txn lock with
      | none => exact AssocMap.find_erase_of_ne _ hkey
      | some lock' => exact AssocMap.find_assign_of_ne _ _ hkey

theorem find_release (key' : ResourceKey) :
    (m.release txn).held.find key' = (m.held.find key').bind (releaseLock txn) :=
  AssocMap.find_filterMapValues _ _ _

/-- The lock that is left after a release of one of its holders. -/
theorem releaseLock_eq_some {lock lock' : Lock} (h : releaseLock txn lock = some lock') :
    lock'.holders = lock.holders.erase txn := by
  unfold releaseLock at h
  dsimp only at h
  split_ifs at h with hmem hempty
  · cases h
    rfl
  · cases h
    exact (List.erase_of_not_mem hmem).symm

theorem waiters_grant : (m.grant txn key mode).waiters = m.waiters := by
  unfold grant
  cases m.held.find key with
  | none => rfl
  | some lock =>
    dsimp only
    split_ifs <;> rfl

/-- The locks after a grant: only the lock of the resource changes. -/
theorem find_grant_of_ne {key' : ResourceKey} (hne : key' ≠ key) :
    (m.grant txn key mode).held.find key' = m.held.find key' := by
  unfold grant
  cases hfind : m.held.find key with
  | none => exact AssocMap.find_assign_of_ne _ _ hne
  | some lock =>
    dsimp only
    split_ifs
    · exact AssocMap.find_assign_of_ne _ _ hne
    · rfl
    · exact AssocMap.find_assign_of_ne _ _ hne
    · exact AssocMap.find_assign_of_ne _ _ hne

/-- The lock of the resource after a grant: a new one, the same one, an upgraded one, or a shared one
with one holder more. -/
theorem find_grant_self (hgrant : m.grantable txn key mode = true) :
    (m.held.find key = none ∧ (m.grant txn key mode).held.find key = some ⟨mode, [txn]⟩) ∨
    ∃ lock, m.held.find key = some lock ∧
      ((txn ∈ lock.holders ∧ mode = .exclusive ∧ lock.mode = .shared ∧
        (m.grant txn key mode).held.find key = some ⟨.exclusive, lock.holders⟩) ∨
      (txn ∈ lock.holders ∧ ¬ (mode = .exclusive ∧ lock.mode = .shared) ∧
        (m.grant txn key mode).held.find key = some lock) ∨
      (txn ∉ lock.holders ∧ mode = .shared ∧ lock.mode = .shared ∧
        (m.grant txn key mode).held.find key = some ⟨.shared, lock.holders ++ [txn]⟩)) := by
  unfold grantable at hgrant
  unfold grant
  cases hfind : m.held.find key with
  | none => exact Or.inl ⟨rfl, AssocMap.find_assign_self _ _ _⟩
  | some lock =>
    rw [hfind] at hgrant
    refine Or.inr ⟨lock, rfl, ?_⟩
    dsimp only
    by_cases hmem : txn ∈ lock.holders
    · by_cases hup : mode = .exclusive ∧ lock.mode = .shared
      · rw [if_pos hmem, if_pos hup]
        exact Or.inl ⟨hmem, hup.1, hup.2, AssocMap.find_assign_self _ _ _⟩
      · rw [if_pos hmem, if_neg hup]
        exact Or.inr (Or.inl ⟨hmem, hup, hfind⟩)
    · have hshared : mode = .shared ∧ lock.mode = .shared := by
        simpa [hmem] using hgrant
      refine Or.inr (Or.inr ⟨hmem, hshared.1, hshared.2, ?_⟩)
      rw [if_neg hmem, if_neg (by rw [hshared.1]; decide)]
      refine (AssocMap.find_assign_self _ _ _).trans ?_
      rw [hshared.2]

end LockManager

namespace LockSystem

variable {s s' : LockSystem} {e : LockEvent}

/-- A step leaves the locks alone, grants its request, or releases. -/
theorem step_held (h : s.step e = some s') :
    s'.manager.held = s.manager.held ∨
    (∃ c, s.request e = some c ∧ s.manager.grantable c.txn c.key c.mode = true ∧
      s'.manager.held = (s.manager.grant c.txn c.key c.mode).held) ∨
    (∃ txn key, s'.manager.held = (s.manager.releaseKey txn key).held) ∨
    ∃ txn, s'.manager.held = (s.manager.release txn).held := by
  cases e with
  | call c =>
    cases h
    unfold start
    split_ifs with hgrant
    · exact Or.inr (Or.inl ⟨c, rfl, hgrant, rfl⟩)
    · exact Or.inl rfl
  | wake i =>
    obtain ⟨c, hc, rfl⟩ := Option.map_eq_some_iff.1 h
    unfold resume
    dsimp only
    split_ifs with hgrant
    · exact Or.inr (Or.inl ⟨c, hc, hgrant, LockManager.grant_held_congr rfl⟩)
    · cases c.kind <;> exact Or.inl rfl
  | timeout i =>
    dsimp only [step] at h
    split at h
    · cases h
      exact Or.inl LockManager.held_forgetWaiter
    · cases h
  | releaseKey txn key =>
    cases h
    exact Or.inr (Or.inr (Or.inl ⟨txn, key, rfl⟩))
  | release txn =>
    cases h
    exact Or.inr (Or.inr (Or.inr ⟨txn, rfl⟩))

end LockSystem

end OpenDB
