import Mathlib.Data.List.Perm.Basic
import Mathlib.Data.List.Nodup
import OpenDB.Core.MutualExclusion

/-!
# Lock bookkeeping

What the manager writes down agrees with what the callers have been told: a held resource has holders,
each of them once; a lock that has been granted is lost by a release of its own only; a wait that runs
out changes no lock; and the wait queues hold the requests that are blocked.

The queues are searched by transaction, so which entry of a queue leaves it is only determined up to
the transaction of the entry. `Queued f` says that queues and blocked requests agree in what `f` sees of
an entry: in the transactions always, in the modes too as long as no transaction has two requests
pending.
-/

set_option autoImplicit false

namespace OpenDB

open OpenDB.Library

/-- The entry of the wait queue that a blocked call leaves. -/
def LockCall.waiter (c : LockCall) : Waiter := ⟨c.txn, c.mode⟩

namespace LockManager

/-- In which mode the transaction holds the resource, if it does. -/
def holding (m : LockManager) (txn : UInt64) (key : ResourceKey) : Option LockMode :=
  match m.held.find key with
  | none => none
  | some lock => if txn ∈ lock.holders then some lock.mode else none

/-- `waiters_[key]`. -/
def queue (m : LockManager) (key : ResourceKey) : List Waiter := (m.waiters.find key).getD []

variable {m : LockManager} {txn : UInt64} {key key' : ResourceKey} {mode : LockMode}

/-! ## Wait queues -/

theorem queue_congr {m' : LockManager} (h : m'.waiters = m.waiters) (key : ResourceKey) :
    m'.queue key = m.queue key := by
  rw [queue, queue, h]

theorem queue_assign (q : List Waiter) :
    ({ m with waiters := m.waiters.assign key q } : LockManager).queue key' =
      if key' = key then q else m.queue key' := by
  simp only [queue]
  by_cases hkey : key' = key
  · subst hkey
    rw [if_pos rfl, AssocMap.find_assign_self]
    rfl
  · rw [if_neg hkey, AssocMap.find_assign_of_ne _ _ hkey]

theorem queue_pushWaiter (w : Waiter) :
    (m.pushWaiter key w).queue key' = if key' = key then m.queue key ++ [w] else m.queue key' :=
  queue_assign _

theorem queue_dropWaiter :
    (m.dropWaiter key txn).queue key' =
      if key' = key then (m.queue key).eraseP fun w => w.txn == txn else m.queue key' :=
  queue_assign _

/-- An empty queue that is dropped is an empty queue. -/
theorem queue_forgetWaiter :
    (m.forgetWaiter key txn).queue key' = (m.dropWaiter key txn).queue key' := by
  unfold forgetWaiter
  dsimp only
  split_ifs with hempty
  · by_cases hkey : key' = key
    · subst hkey
      refine Eq.trans ?_ hempty.symm
      simp [queue, AssocMap.find_erase_self]
    · simp [queue, AssocMap.find_erase_of_ne _ hkey]
  · rfl

theorem waiters_releaseKey : (m.releaseKey txn key).waiters = m.waiters := by
  rw [releaseKey]
  cases m.held.find key with
  | none => rfl
  | some lock =>
    dsimp only
    cases releaseLock txn lock <;> rfl

/-! ## Holders -/

theorem isGrantedKey_iff :
    m.isGrantedKey txn key = true ↔ ∃ lock, m.held.find key = some lock ∧ txn ∈ lock.holders := by
  rw [isGrantedKey]
  cases m.held.find key <;> simp

/-- A request that is granted makes its transaction a holder. -/
theorem isGrantedKey_grant (h : m.grantable txn key mode = true) :
    (m.grant txn key mode).isGrantedKey txn key = true := by
  rw [isGrantedKey_iff]
  rcases find_grant_self h with ⟨-, hfind⟩ | ⟨lock, -, ⟨hmem, -, -, hfind⟩ | ⟨hmem, -, hfind⟩ |
    ⟨-, -, -, hfind⟩⟩
  · exact ⟨_, hfind, by simp⟩
  · exact ⟨_, hfind, hmem⟩
  · exact ⟨_, hfind, hmem⟩
  · -- a further shared holder, which the grant has added
    exact ⟨_, hfind, by simp⟩

/-- A grant revokes nothing: the branch that clears the holders is never taken on a grantable
request. -/
theorem isGrantedKey_of_grant {t : UInt64} (hgrant : m.grantable txn key mode = true)
    (h : m.isGrantedKey t key' = true) : (m.grant txn key mode).isGrantedKey t key' = true := by
  rw [isGrantedKey_iff] at h ⊢
  obtain ⟨lock₀, hlock₀, hmem⟩ := h
  by_cases hkey : key' = key
  · subst hkey
    rcases find_grant_self hgrant with ⟨hnone, -⟩ | ⟨lock, hlock, hcases⟩
    · rw [hnone] at hlock₀
      cases hlock₀
    · rw [hlock] at hlock₀
      cases hlock₀
      rcases hcases with ⟨-, -, -, hfind⟩ | ⟨-, -, hfind⟩ | ⟨-, -, -, hfind⟩
      · exact ⟨_, hfind, hmem⟩
      · exact ⟨_, hfind, hmem⟩
      · -- a shared lock has got one holder more
        exact ⟨_, hfind, List.mem_append_left _ hmem⟩
  · exact ⟨lock₀, (find_grant_of_ne hkey).trans hlock₀, hmem⟩

/-- The locks of the others are left by a release, in the mode they have. -/
theorem releaseLock_of_mem {t : UInt64} {lock : Lock} (hne : t ≠ txn) (hmem : t ∈ lock.holders) :
    ∃ lock', releaseLock txn lock = some lock' ∧ lock'.mode = lock.mode ∧ t ∈ lock'.holders := by
  have herase : t ∈ lock.holders.erase txn := (List.mem_erase_of_ne hne).2 hmem
  rw [releaseLock]
  dsimp only
  split_ifs with hholds hempty
  · rw [List.isEmpty_iff.1 hempty] at herase
    cases herase
  · exact ⟨_, rfl, rfl, herase⟩
  · exact ⟨_, rfl, rfl, hmem⟩

theorem holders_ne_nil_of_releaseLock {lock lock' : Lock} (hne : lock.holders ≠ [])
    (h : releaseLock txn lock = some lock') : lock'.holders ≠ [] := by
  rw [releaseLock] at h
  dsimp only at h
  split_ifs at h with hholds hempty
  · cases h
    exact fun hnil => hempty (List.isEmpty_iff.2 hnil)
  · cases h
    exact hne

/-- A release of one lock by one transaction leaves the holders of all other locks, and the other
holders of this one. -/
theorem isGrantedKey_of_releaseKey {t : UInt64} (hown : ¬ (t = txn ∧ key' = key))
    (h : m.isGrantedKey t key' = true) : (m.releaseKey txn key).isGrantedKey t key' = true := by
  rw [isGrantedKey_iff] at h ⊢
  obtain ⟨lock, hlock, hmem⟩ := h
  rw [find_releaseKey]
  split_ifs with hkey
  · obtain ⟨lock', hlock', -, hmem'⟩ := releaseLock_of_mem (fun ht => hown ⟨ht, hkey⟩) hmem
    exact ⟨lock', by rw [hlock, Option.bind_some, hlock'], hmem'⟩
  · exact ⟨lock, hlock, hmem⟩

theorem isGrantedKey_of_release {t : UInt64} (hne : t ≠ txn) (h : m.isGrantedKey t key' = true) :
    (m.release txn).isGrantedKey t key' = true := by
  rw [isGrantedKey_iff] at h ⊢
  obtain ⟨lock, hlock, hmem⟩ := h
  obtain ⟨lock', hlock', -, hmem'⟩ := releaseLock_of_mem hne hmem
  exact ⟨lock', by rw [find_release, hlock, Option.bind_some, hlock'], hmem'⟩

/-- After its release the transaction holds nothing. -/
theorem holding_release_self (hm : DistinctHolders m) : (m.release txn).holding txn key = none := by
  rw [holding]
  rw [find_release]
  cases hfind : m.held.find key with
  | none => rfl
  | some lock =>
    rw [Option.bind_some]
    cases hlock : releaseLock txn lock with
    | none => rfl
    | some lock' =>
      refine if_neg ?_
      rw [releaseLock_eq_some hlock]
      exact (hm key lock hfind).not_mem_erase

/-- A release changes nothing for the others. -/
theorem holding_release_of_ne {t : UInt64} (hne : t ≠ txn) :
    (m.release txn).holding t key = m.holding t key := by
  simp only [holding]
  rw [find_release]
  cases hfind : m.held.find key with
  | none => rfl
  | some lock =>
    rw [Option.bind_some]
    -- either it is still a holder, in the same mode, or it has not been one
    by_cases hmem : t ∈ lock.holders
    · obtain ⟨lock', hlock', hmode, hmem'⟩ := releaseLock_of_mem hne hmem
      simp [hlock', hmem, hmem', hmode]
    · cases hlock : releaseLock txn lock with
      | none => simp [hmem]
      | some lock' =>
        have hmem' : t ∉ lock'.holders := by
          rw [releaseLock_eq_some hlock]
          exact fun h => hmem (List.mem_of_mem_erase h)
        simp [hmem, hmem']

end LockManager

/-! ## Blocked requests -/

namespace LockSystem

variable {s s' : LockSystem} {e : LockEvent} {β : Type} {f : Waiter → β}

/-- The requests that wait for the resource. -/
def blockedOn (s : LockSystem) (key : ResourceKey) : List LockCall :=
  s.waiting.filter fun c => c.key = key

/-- The wait queues hold the requests that are blocked, as far as `f` sees them. -/
def Queued (f : Waiter → β) (s : LockSystem) : Prop :=
  ∀ key, ((s.manager.queue key).map f).Perm ((s.blockedOn key).map fun c => f c.waiter)

/-- A search for the transaction of a blocked request finds its entry, as far as `f` sees it. -/
def FindsOwn (f : Waiter → β) (s : LockSystem) : Prop :=
  ∀ c ∈ s.waiting, ∀ rest, ((s.manager.queue c.key).map f).Perm (f c.waiter :: rest) →
    (((s.manager.queue c.key).eraseP fun w => w.txn == c.txn).map f).Perm rest

theorem findsOwn_txn : FindsOwn Waiter.txn s := by
  intro c hc rest hperm
  have herase : ((s.manager.queue c.key).eraseP fun w => w.txn == c.txn).map Waiter.txn =
      ((s.manager.queue c.key).map Waiter.txn).erase c.txn := by
    rw [List.erase_eq_eraseP', List.eraseP_map]
    rfl
  rw [herase]
  have hrest := hperm.erase c.txn
  rwa [show c.waiter.txn = c.txn from rfl, List.erase_cons_head] at hrest

/-- When no transaction has two requests pending, the entry of its transaction is its own. -/
theorem findsOwn_of_nodup (hnodup : (s.waiting.map LockCall.txn).Nodup) (hs : Queued id s) :
    FindsOwn id s := by
  intro c hc rest hperm
  rw [List.map_id] at hperm ⊢
  have hdistinct : ((s.manager.queue c.key).map Waiter.txn).Nodup := by
    have hqueue := (hs c.key).map Waiter.txn
    rw [List.map_id, List.map_map] at hqueue
    refine hqueue.nodup_iff.2 (hnodup.sublist ?_)
    exact List.filter_sublist.map _
  have hpairs : (s.manager.queue c.key).Pairwise
      fun a b => (a.txn == c.txn) = true → (b.txn == c.txn) = true → False := by
    refine (List.pairwise_map.1 hdistinct).imp ?_
    intro a b hne ha hb
    exact hne ((eq_of_beq ha).trans (eq_of_beq hb).symm)
  -- the search stops at the only entry of the transaction, in any order of the queue
  have herase := hperm.eraseP (fun w => w.txn == c.txn) hpairs
  rwa [List.eraseP_cons_of_pos (by simp [LockCall.waiter])] at herase

/-- The request at a place in the list of blocked ones, and the others. -/
theorem blockedOn_perm {i : Nat} {c : LockCall} (hc : s.waiting[i]? = some c) (key : ResourceKey) :
    (s.blockedOn key).Perm
      (if c.key = key then c :: (s.waiting.eraseIdx i).filter fun c => c.key = key
        else (s.waiting.eraseIdx i).filter fun c => c.key = key) := by
  obtain ⟨hi, rfl⟩ := List.getElem?_eq_some_iff.1 hc
  have hperm := ((List.getElem_cons_eraseIdx_perm hi).symm).filter fun c => c.key = key
  by_cases hkey : s.waiting[i].key = key
  · rw [if_pos hkey]
    rwa [List.filter_cons_of_pos (by simpa using hkey)] at hperm
  · rw [if_neg hkey]
    rwa [List.filter_cons_of_neg (by simpa using hkey)] at hperm

/-- Without the entry of a blocked request the queues hold the other blocked requests. -/
theorem Queued.dropped (hs : Queued f s) (hf : FindsOwn f s) {i : Nat} {c : LockCall}
    (hc : s.waiting[i]? = some c) (key : ResourceKey) :
    (((s.manager.dropWaiter c.key c.txn).queue key).map f).Perm
      (((s.waiting.eraseIdx i).filter fun c => c.key = key).map fun c => f c.waiter) := by
  have hmem := List.mem_of_getElem? hc
  have hblocked := (blockedOn_perm hc key).map fun c => f c.waiter
  rw [LockManager.queue_dropWaiter]
  by_cases hkey : key = c.key
  · subst hkey
    rw [if_pos rfl]
    rw [if_pos rfl, List.map_cons] at hblocked
    exact hf c hmem _ ((hs c.key).trans hblocked)
  · rw [if_neg hkey]
    rw [if_neg (Ne.symm hkey)] at hblocked
    exact (hs key).trans hblocked

/-- A step keeps queues and blocked requests together: a request that blocks leaves an entry, and one
that is granted or gives up takes its entry with it. -/
theorem Queued.step (hs : Queued f s) (hf : FindsOwn f s) (h : s.step e = some s') :
    Queued f s' := by
  cases e with
  | call c =>
    cases h
    unfold start
    split_ifs with hgrant
    · intro key
      rw [LockManager.queue_congr LockManager.waiters_grant]
      -- granted at once: no queue and no blocked request changes
      exact hs key
    · intro key
      -- blocked: the request and its entry both come last
      show (((s.manager.pushWaiter c.key c.waiter).queue key).map f).Perm _
      rw [LockManager.queue_pushWaiter, blockedOn, List.filter_append, List.map_append]
      by_cases hkey : key = c.key
      · subst hkey
        rw [if_pos rfl, List.map_append]
        refine (hs c.key).append ?_
        simp
      · rw [if_neg hkey]
        have hnone : [c].filter (fun c => c.key = key) = [] := by simp [Ne.symm hkey]
        rw [hnone, List.map_nil, List.append_nil]
        exact hs key
  | wake i =>
    obtain ⟨c, hc, rfl⟩ := Option.map_eq_some_iff.1 h
    have hdropped := hs.dropped hf hc
    unfold resume
    dsimp only
    split_ifs with hgrant
    · intro key
      rw [LockManager.queue_congr LockManager.waiters_grant]
      -- granted: the entry has gone with the request
      exact hdropped key
    · cases hkind : c.kind with
      -- a bounded wait leaves its entry where it is until it gives up
      | tryAcquireKey => exact hs
      | acquireKey =>
        -- the call has left the queue and joins it again at its end
        intro key
        refine List.Perm.trans ?_ ((blockedOn_perm hc key).map fun c => f c.waiter).symm
        show ((((s.manager.dropWaiter c.key c.txn).pushWaiter c.key c.waiter).queue key).map f).Perm _
        rw [LockManager.queue_pushWaiter]
        by_cases hkey : key = c.key
        · subst hkey
          rw [if_pos rfl, if_pos rfl, List.map_append, List.map_cons]
          exact (List.perm_append_singleton _ _).trans ((hdropped c.key).cons _)
        · rw [if_neg hkey, if_neg (Ne.symm hkey)]
          exact hdropped key
  | timeout i =>
    dsimp only [LockSystem.step] at h
    split at h
    · rename_i txn key' mode hc
      cases h
      intro key
      show (((s.manager.forgetWaiter key' txn).queue key).map f).Perm _
      rw [LockManager.queue_forgetWaiter]
      exact hs.dropped hf hc key
    · cases h
  | releaseKey txn key' =>
    cases h
    intro key
    rw [LockManager.queue_congr LockManager.waiters_releaseKey]
    exact hs key
  | release txn =>
    cases h
    exact hs

theorem queued_new : Queued f .new := by
  intro key
  rfl

/-- In every reachable state the queues hold the transactions that are blocked. -/
theorem queued_txns {trace : List (LockSystem × LockEvent)} (h : LockRun trace s) :
    Queued Waiter.txn s :=
  h.invariant queued_new fun _ _ _ hs hstep => hs.step findsOwn_txn hstep

/-! ## One pending request for each transaction -/

/-- A transaction asks for a lock only when no request of it is blocked. -/
def AsksAlone (s : LockSystem) : LockEvent → Prop
  | .call c => ∀ c' ∈ s.waiting, c'.txn ≠ c.txn
  | _ => True

instance (s : LockSystem) : (e : LockEvent) → Decidable (AsksAlone s e)
  | .call c => inferInstanceAs (Decidable (∀ c' ∈ s.waiting, c'.txn ≠ c.txn))
  | .wake _ | .timeout _ | .releaseKey _ _ | .release _ => inferInstanceAs (Decidable True)

/-- The blocked requests come from different transactions. -/
def OnePending (s : LockSystem) : Prop := (s.waiting.map LockCall.txn).Nodup

theorem OnePending.step (hs : OnePending s) (halone : AsksAlone s e) (h : s.step e = some s') :
    OnePending s' := by
  have hfewer : ∀ i, ((s.waiting.eraseIdx i).map LockCall.txn).Nodup := fun i =>
    hs.sublist ((List.eraseIdx_sublist _ _).map _)
  cases e with
  | call c =>
    cases h
    unfold start
    split_ifs with hgrant
    · exact hs
    · show ((s.waiting ++ [c]).map LockCall.txn).Nodup
      rw [List.map_append, List.map_singleton]
      refine List.nodup_append.2 ⟨hs, List.nodup_singleton _, ?_⟩
      rintro t ht u hu rfl
      obtain ⟨c', hc', rfl⟩ := List.mem_map.1 ht
      exact halone c' hc' (List.mem_singleton.1 hu)
  | wake i =>
    obtain ⟨c, hc, rfl⟩ := Option.map_eq_some_iff.1 h
    unfold resume
    dsimp only
    split_ifs with hgrant
    · exact hfewer i
    · cases c.kind <;> exact hs
  | timeout i =>
    dsimp only [LockSystem.step] at h
    split at h
    · cases h
      exact hfewer i
    · cases h
  | releaseKey txn key =>
    cases h
    exact hs
  | release txn =>
    cases h
    exact hs

/-- The queues then hold the blocked requests with their modes. -/
theorem pending_run {trace : List (LockSystem × LockEvent)} (h : LockRun trace s)
    (halone : ∀ p ∈ trace, AsksAlone p.1 p.2) : OnePending s ∧ Queued id s := by
  -- both come along the run: the queues need that no transaction has two requests pending
  refine h.invariant_of_forall (P := fun s => OnePending s ∧ Queued id s)
    (B := fun s e => ¬ AsksAlone s e) ⟨?_, queued_new⟩ ?_ fun p hp => not_not_intro (halone p hp)
  · show (List.map LockCall.txn []).Nodup
    exact List.nodup_nil
  · rintro s e s' ⟨hone, hqueued⟩ hstep hgood
    exact ⟨hone.step (not_not.1 hgood) hstep, hqueued.step (findsOwn_of_nodup hone hqueued) hstep⟩

/-! ## Holders over runs -/

/-- The event gives the lock of the resource back for the transaction. -/
def GivesBack (txn : UInt64) (key : ResourceKey) (e : LockEvent) : Prop :=
  e = .release txn ∨ e = .releaseKey txn key

/-- Every held resource has a holder. -/
def HasHolders (m : LockManager) : Prop :=
  ∀ key lock, m.held.find key = some lock → lock.holders ≠ []

theorem step_hasHolders (h : s.step e = some s') (hs : HasHolders s.manager) :
    HasHolders s'.manager := by
  intro key lock' hfind
  rcases step_held h with hsame | ⟨c, -, hgrant, hheld⟩ | ⟨txn, key', hrel⟩ | ⟨txn, hrel⟩
  · rw [hsame] at hfind
    exact hs key lock' hfind
  · rw [hheld] at hfind
    by_cases hkey : key = c.key
    · subst hkey
      -- the transaction of the request is a holder now
      obtain ⟨lock, hlock, hmem⟩ :=
        LockManager.isGrantedKey_iff.1 (LockManager.isGrantedKey_grant hgrant)
      rw [hfind] at hlock
      cases hlock
      exact List.ne_nil_of_mem hmem
    · rw [LockManager.find_grant_of_ne hkey] at hfind
      exact hs key lock' hfind
  · rw [hrel, LockManager.find_releaseKey] at hfind
    split_ifs at hfind with hkey
    · obtain ⟨lock, hlock, hrelease⟩ := Option.bind_eq_some_iff.1 hfind
      exact LockManager.holders_ne_nil_of_releaseLock (hs key lock hlock) hrelease
    · exact hs key lock' hfind
  · rw [hrel, LockManager.find_release] at hfind
    obtain ⟨lock, hlock, hrelease⟩ := Option.bind_eq_some_iff.1 hfind
    exact LockManager.holders_ne_nil_of_releaseLock (hs key lock hlock) hrelease

theorem hasHolders_run {trace : List (LockSystem × LockEvent)} (h : LockRun trace s) :
    HasHolders s.manager := by
  refine h.invariant (P := fun s => HasHolders s.manager) ?_ fun _ _ _ hs hstep => step_hasHolders hstep hs
  intro key lock hfind
  cases hfind

theorem isGrantedKey_congr {m m' : LockManager} (h : m'.held = m.held) (txn : UInt64)
    (key : ResourceKey) : m'.isGrantedKey txn key = m.isGrantedKey txn key := by
  simp only [LockManager.isGrantedKey]
  rw [h]

/-- A holder stays one in every step but a release of its own. -/
theorem step_keeps_holder {txn : UInt64} {key : ResourceKey} (h : s.step e = some s')
    (hnot : ¬ GivesBack txn key e) (hholds : s.manager.isGrantedKey txn key = true) :
    s'.manager.isGrantedKey txn key = true := by
  cases e with
  | call c =>
    cases h
    unfold start
    split_ifs with hgrant
    · exact LockManager.isGrantedKey_of_grant hgrant hholds
    · exact hholds
  | wake i =>
    obtain ⟨c, hc, rfl⟩ := Option.map_eq_some_iff.1 h
    unfold resume
    dsimp only
    split_ifs with hgrant
    · rw [isGrantedKey_congr (LockManager.grant_held_congr rfl)]
      exact LockManager.isGrantedKey_of_grant hgrant hholds
    · cases c.kind <;> exact hholds
  | timeout i =>
    dsimp only [LockSystem.step] at h
    split at h
    · cases h
      rw [isGrantedKey_congr LockManager.held_forgetWaiter]
      exact hholds
    · cases h
  | releaseKey t key' =>
    cases h
    -- only a release of this lock by this transaction takes it
    apply LockManager.isGrantedKey_of_releaseKey _ hholds
    rintro ⟨rfl, rfl⟩
    exact hnot (Or.inr rfl)
  | release t =>
    cases h
    apply LockManager.isGrantedKey_of_release _ hholds
    rintro rfl
    exact hnot (Or.inl rfl)

theorem follow_keeps_holder {txn : UInt64} {key : ResourceKey} {es : List LockEvent}
    (h : (follow LockSystem.step es s).2 = some s') (hnot : ∀ e ∈ es, ¬ GivesBack txn key e)
    (hholds : s.manager.isGrantedKey txn key = true) : s'.manager.isGrantedKey txn key = true := by
  induction es generalizing s with
  | nil =>
    cases h
    exact hholds
  | cons e es ih =>
    rw [follow] at h
    cases hstep : s.step e with
    -- an event that is not enabled ends the list
    | none =>
      rw [hstep] at h
      cases h
    | some s₁ =>
      rw [hstep] at h
      have hkept := step_keeps_holder hstep (hnot e List.mem_cons_self) hholds
      exact ih h (fun e he => hnot e (List.mem_cons_of_mem _ he)) hkept

/-- A step that decides a request grants it, or changes no lock. -/
theorem step_decides {c : LockCall} (h : s.step e = some s') (hc : s.request e = some c) :
    if s.manager.grantable c.txn c.key c.mode = true then
      s'.manager.isGrantedKey c.txn c.key = true
    else s'.manager.held = s.manager.held := by
  cases e with
  | call c' =>
    cases hc
    cases h
    unfold start
    split_ifs with hgrant
    · exact LockManager.isGrantedKey_grant hgrant
    · rfl
  | wake i =>
    obtain ⟨c', hc', rfl⟩ := Option.map_eq_some_iff.1 h
    obtain rfl : c' = c := Option.some.inj (hc'.symm.trans hc)
    unfold resume
    dsimp only
    split_ifs with hgrant
    · rw [isGrantedKey_congr (LockManager.grant_held_congr rfl)]
      exact LockManager.isGrantedKey_grant hgrant
    · cases c'.kind <;> rfl
  | timeout i => cases hc
  | releaseKey txn key => cases hc
  | release txn => cases hc

theorem timeout_held {i : Nat} (h : s.step (.timeout i) = some s') :
    s'.manager.held = s.manager.held := by
  dsimp only [LockSystem.step] at h
  split at h
  · cases h
    exact LockManager.held_forgetWaiter
  · cases h

end LockSystem

/-! ## The books -/

/-- The books of the manager are in order. -/
structure LockSystem.InOrder (s : LockSystem) : Prop where
  /-- A held resource has holders, each of them once. -/
  holders : ∀ key lock, s.manager.held.find key = some lock →
    lock.holders ≠ [] ∧ lock.holders.Nodup
  /-- A granted request makes its transaction a holder. -/
  granted : ∀ e c s', s.request e = some c → s.manager.grantable c.txn c.key c.mode = true →
    s.step e = some s' → s'.manager.isGrantedKey c.txn c.key = true
  /-- A holder stays one until it gives the lock back. -/
  stays : ∀ txn key es s', s.manager.isGrantedKey txn key = true →
    (follow LockSystem.step es s).2 = some s' → (∀ e ∈ es, ¬ LockSystem.GivesBack txn key e) →
    s'.manager.isGrantedKey txn key = true
  /-- A release leaves its transaction nothing and the others what they had. -/
  release : ∀ txn s', s.step (.release txn) = some s' → ∀ t key,
    s'.manager.holding t key = if t = txn then none else s.manager.holding t key
  /-- A bounded wait that runs out changes no lock, at its end and on the way there. -/
  timedOut : (∀ i s', s.step (.timeout i) = some s' → s'.manager.held = s.manager.held) ∧
    ∀ e c s', s.request e = some c → s.manager.grantable c.txn c.key c.mode = false →
      s.step e = some s' → s'.manager.held = s.manager.held
  /-- The wait queues hold the requests that are blocked. -/
  waiters : ∀ key, (s.manager.queue key).Perm ((s.blockedOn key).map LockCall.waiter)

/-- The books are in order in every reachable state in which no transaction has ever had two requests
pending. -/
theorem lock_bookkeeping {trace : List (LockSystem × LockEvent)} {s : LockSystem}
    (h : LockRun trace s) (halone : ∀ p ∈ trace, LockSystem.AsksAlone p.1 p.2) : s.InOrder where
  holders key lock hfind :=
    ⟨LockSystem.hasHolders_run h key lock hfind, distinctHolders_run h key lock hfind⟩
  granted e c s' hc hgrant hstep := by
    have hdecides := LockSystem.step_decides hstep hc
    rwa [if_pos hgrant] at hdecides
  stays txn key es s' hholds hes hnot := LockSystem.follow_keeps_holder hes hnot hholds
  release txn s' hstep t key := by
    cases hstep
    split_ifs with hself
    · rw [hself]
      exact LockManager.holding_release_self (distinctHolders_run h)
    · exact LockManager.holding_release_of_ne hself
  timedOut := by
    refine ⟨fun i s' => LockSystem.timeout_held, fun e c s' hc hblocked hstep => ?_⟩
    have hdecides := LockSystem.step_decides hstep hc
    rwa [if_neg (by rw [hblocked]; exact Bool.false_ne_true)] at hdecides
  waiters key := by
    have hqueued := (LockSystem.pending_run h halone).2 key
    rwa [List.map_id] at hqueued

/-- One transaction holds a table, a second one waits for it and gives up, a third one waits still. -/
theorem lock_bookkeeping_one_blocked : ∃ trace s, LockRun trace s ∧ s.InOrder ∧
    s.blockedOn (tableKey (ascii "t")) = [⟨.acquireKey, 3, tableKey (ascii "t"), .shared⟩] := by
  set es : List LockEvent := [callOnTable 1 .exclusive,
    .call ⟨.tryAcquireKey, 2, tableKey (ascii "t"), .exclusive⟩, callOnTable 3 .shared, .timeout 0]
  have hend : ∃ s, (follow LockSystem.step es .new).2 = some s ∧
      s.blockedOn (tableKey (ascii "t")) = [⟨.acquireKey, 3, tableKey (ascii "t"), .shared⟩] :=
    ⟨_, rfl, by decide⟩
  obtain ⟨s, hs, hblocked⟩ := hend
  have hrun := Run.of_follow hs
  exact ⟨_, s, hrun, lock_bookkeeping hrun (by decide), hblocked⟩

end OpenDB
