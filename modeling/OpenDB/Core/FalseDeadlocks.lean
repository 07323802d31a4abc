import Mathlib.Logic.Relation
import OpenDB.Core.WaitChains

/-!
# False deadlocks

A blocked request waits for the other holders of its resource whose mode is incompatible with its own.
The detector goes by tables instead: it takes every holder of anything in the table, row or table lock
and in whatever mode, for somebody the request waits for, the requesting transaction included. A victim
lies on a cycle if the waits that the detector sees on the ways back to it are real ones
(`CirclesReal.sound`).

All of them are in the states where a table with a blocked request has no held resource but the one the
request is for, and that one is not to be had for it (`Aligned`). A run keeps to such states exactly if
none of its steps grants or refuses a request beside the blocked requests of its table
(`aligned_iff`).
-/

set_option autoImplicit false

namespace OpenDB

open OpenDB.Library

namespace LockSystem

variable {s s' : LockSystem} {e : LockEvent} {origin victim : UInt64}

/-- The transaction has a blocked request, and the other one holds the resource in a mode that is
incompatible with it. -/
def WaitsFor (s : LockSystem) (txn holder : UInt64) : Prop :=
  ∃ c ∈ s.waiting, c.txn = txn ∧ ∃ lock, s.manager.held.find c.key = some lock ∧
    holder ∈ lock.holders ∧ holder ≠ txn ∧ ¬ (c.mode = .shared ∧ lock.mode = .shared)

/-- The transaction lies on a cycle of waits. -/
def Deadlocked (s : LockSystem) (txn : UInt64) : Prop := Relation.TransGen s.WaitsFor txn txn

/-- Whatever is held in the table of a blocked request is the resource it is for, and keeps it
blocked. -/
def Aligned (s : LockSystem) : Prop :=
  ∀ w ∈ s.waiting, ∀ key lock, s.manager.held.find key = some lock → key.1 = w.key.1 →
    key = w.key ∧ w.txn ∉ lock.holders ∧ ¬ (w.mode = .shared ∧ lock.mode = .shared)

/-- The waits for tables on the ways from the transaction back to it are waits for the holders. -/
def CirclesReal (s : LockSystem) (origin : UInt64) : Prop :=
  ∀ txn holder, Relation.ReflTransGen s.manager.TableWait origin txn → s.manager.TableWait txn holder →
    Relation.ReflTransGen s.manager.TableWait holder origin → s.WaitsFor txn holder

/-- Only the steps on the ways between the two ends matter. -/
theorem transGen_of_steps {α : Type} {R S : α → α → Prop} {a b : α} (h : Relation.TransGen R a b)
    (hsteps : ∀ x y, Relation.ReflTransGen R a x → R x y → Relation.ReflTransGen R y b → S x y) :
    Relation.TransGen S a b := by
  induction h using Relation.TransGen.head_induction_on with
  | single hstep => exact .single (hsteps _ _ .refl hstep .refl)
  | head hstep hrest ih =>
    have hfirst := hsteps _ _ .refl hstep hrest.to_reflTransGen
    exact .head hfirst (ih fun x y hx => hsteps x y (.head hstep hx))

/-- A victim whose table waits are real lies on a cycle. -/
theorem CirclesReal.sound [StandardLibrary] (hs : s.CirclesReal origin)
    (h : s.manager.detectCycle origin = some victim) : victim = origin ∧ s.Deadlocked origin :=
  ⟨(LockManager.detectCycle_eq_some_iff.1 h).1,
    transGen_of_steps (LockManager.onCircle_of_detectCycle h) hs⟩

/-- In an aligned state the holders of the table of a blocked request are those it waits for. -/
theorem Aligned.waitsFor (hs : Aligned s) {w : LockCall} (hw : w ∈ s.waiting) {holder : UInt64}
    (h : s.manager.HoldsAt holder w.key.1) : s.WaitsFor w.txn holder := by
  obtain ⟨key, lock, hfind, htable, hmem⟩ := h
  obtain ⟨rfl, hown, hmode⟩ := hs w hw key lock hfind htable
  refine ⟨w, hw, rfl, lock, hfind, hmem, ?_, hmode⟩
  rintro rfl
  exact hown hmem

theorem Aligned.circlesReal (hqueued : Queued Waiter.txn s) (hs : Aligned s) (origin : UInt64) :
    s.CirclesReal origin := by
  rintro txn holder - ⟨table, -, ⟨key, rfl, hqueue⟩, hholds⟩ -
  obtain ⟨w, hw, rfl, rfl⟩ := (mem_queue_iff hqueued).1 hqueue
  exact hs.waitsFor hw hholds

/-! ## The steps that leave the aligned states -/

/-- The requests that are still blocked when the event has granted its request. -/
def others (s : LockSystem) : LockEvent → List LockCall
  | .wake i => s.waiting.eraseIdx i
  | _ => s.waiting

/-- The event is granted a lock in a table for which another request is blocked that the lock does not
stand in the way of: one for another resource, one by the same transaction, or a shared one when the
lock is shared. -/
def GrantsBeside (s : LockSystem) (e : LockEvent) : Prop :=
  ∃ c ∈ s.request e, s.manager.grantable c.txn c.key c.mode = true ∧
    ∃ w ∈ s.others e, w.key.1 = c.key.1 ∧ (w.key ≠ c.key ∨ w.txn = c.txn ∨
      (w.mode = .shared ∧ c.mode = .shared ∧
        ∀ lock ∈ s.manager.held.find c.key, lock.mode = .shared))

/-- The event is a call that blocks while something else is held in its table. -/
def BlocksBeside (s : LockSystem) : LockEvent → Prop
  | .call c => s.manager.grantable c.txn c.key c.mode = false ∧
      ∃ held ∈ s.manager.held.entries, held.1.1 = c.key.1 ∧ held.1 ≠ c.key
  | _ => False

/-- The step makes the detector see a wait that is none. -/
def Misleads (s : LockSystem) (e : LockEvent) : Prop := s.GrantsBeside e ∨ s.BlocksBeside e

instance (s : LockSystem) (e : LockEvent) : Decidable (s.GrantsBeside e) :=
  inferInstanceAs (Decidable (∃ c ∈ s.request e, s.manager.grantable c.txn c.key c.mode = true ∧
    ∃ w ∈ s.others e, w.key.1 = c.key.1 ∧ (w.key ≠ c.key ∨ w.txn = c.txn ∨
      (w.mode = .shared ∧ c.mode = .shared ∧
        ∀ lock ∈ s.manager.held.find c.key, lock.mode = .shared))))

instance (s : LockSystem) : (e : LockEvent) → Decidable (s.BlocksBeside e)
  | .call c => inferInstanceAs (Decidable (s.manager.grantable c.txn c.key c.mode = false ∧
      ∃ held ∈ s.manager.held.entries, held.1.1 = c.key.1 ∧ held.1 ≠ c.key))
  | .wake _ | .timeout _ | .releaseKey _ _ | .release _ => inferInstanceAs (Decidable False)

instance (s : LockSystem) (e : LockEvent) : Decidable (s.Misleads e) :=
  inferInstanceAs (Decidable (_ ∨ _))

/-- Fewer blocked requests and no new holders. -/
theorem Aligned.of_fewer (hs : Aligned s) (hwaiting : ∀ w ∈ s'.waiting, w ∈ s.waiting)
    (hheld : ∀ key lock', s'.manager.held.find key = some lock' →
      ∃ lock, s.manager.held.find key = some lock ∧ lock'.mode = lock.mode ∧
        lock'.holders.Sublist lock.holders) : Aligned s' := by
  intro w hw key lock' hfind htable
  obtain ⟨lock, hlock, hmode, hsub⟩ := hheld key lock' hfind
  obtain ⟨hkey, hown, hshared⟩ := hs w (hwaiting w hw) key lock hlock htable
  refine ⟨hkey, fun hmem => hown (hsub.subset hmem), ?_⟩
  rwa [hmode]

theorem others_subset : ∀ w ∈ s.others e, w ∈ s.waiting := by
  intro w hw
  cases e with
  | wake i => exact List.mem_of_mem_eraseIdx hw
  | _ => exact hw

/-- A grant that stands in the way of all requests that are blocked in its table. -/
theorem aligned_granted_iff {c : LockCall} (hs : Aligned s) (hc : s.request e = some c)
    (hgrant : s.manager.grantable c.txn c.key c.mode = true) (hwaiting : s'.waiting = s.others e)
    (hheld : s'.manager.held = (s.manager.grant c.txn c.key c.mode).held) :
    Aligned s' ↔ ¬ s.GrantsBeside e := by
  constructor
  · rintro hs' ⟨c', hc', -, w, hw, htable, hbad⟩
    obtain rfl : c' = c := Option.some.inj ((Option.mem_def.1 hc').symm.trans hc)
    obtain ⟨lock', hlock', hmem⟩ :=
      LockManager.isGrantedKey_iff.1 (LockManager.isGrantedKey_grant hgrant)
    have hfree := hs' w (by rwa [hwaiting]) c'.key lock' (by rw [hheld]; exact hlock') htable.symm
    rcases hbad with hkey | htxn | ⟨hw', hc', hall⟩
    · exact hkey hfree.1.symm
    · rw [htxn] at hfree
      exact hfree.2.1 hmem
    · -- the granted lock is shared like the request
      apply hfree.2.2
      refine ⟨hw', ?_⟩
      rcases LockManager.find_grant_self hgrant with ⟨-, hnew⟩ | ⟨lock, hlock, ⟨-, hexcl, -⟩ |
        ⟨-, -, hsame⟩ | ⟨-, -, -, hadd⟩⟩
      · rw [hnew] at hlock'
        cases hlock'
        exact hc'
      · rw [hexcl] at hc'
        cases hc'
      · rw [hsame] at hlock'
        cases hlock'
        exact hall _ hlock
      · rw [hadd] at hlock'
        cases hlock'
        rfl
  · intro hnot w hw key lock' hfind htable
    rw [hwaiting] at hw
    rw [hheld] at hfind
    by_cases hkey : key = c.key
    swap
    · rw [LockManager.find_grant_of_ne hkey] at hfind
      exact hs w (others_subset w hw) key lock' hfind htable
    subst hkey
    -- the request is for the granted lock, by somebody else
    have hgood : w.key = c.key ∧ w.txn ≠ c.txn ∧ ¬ (w.mode = .shared ∧ c.mode = .shared ∧
        ∀ lock ∈ s.manager.held.find c.key, lock.mode = .shared) := by
      refine ⟨?_, ?_, ?_⟩
      · by_contra hne
        exact hnot ⟨c, hc, hgrant, w, hw, htable.symm, Or.inl hne⟩
      · intro htxn
        exact hnot ⟨c, hc, hgrant, w, hw, htable.symm, Or.inr (Or.inl htxn)⟩
      · intro hshared
        exact hnot ⟨c, hc, hgrant, w, hw, htable.symm, Or.inr (Or.inr hshared)⟩
    obtain ⟨hsame, hother, hmode⟩ := hgood
    refine ⟨hsame.symm, ?_⟩
    have hbefore := hs w (others_subset w hw) c.key
    rcases LockManager.find_grant_self hgrant with ⟨hnone, hnew⟩ | ⟨lock, hlock, hcases⟩
    · rw [hnew] at hfind
      cases hfind
      refine ⟨fun hmem => hother (List.mem_singleton.1 hmem), ?_⟩
      rintro ⟨hw', hc'⟩
      apply hmode
      refine ⟨hw', hc', fun lock hlock => ?_⟩
      rw [hnone] at hlock
      cases hlock
    · obtain ⟨-, hown, hshared⟩ := hbefore lock hlock htable
      rcases hcases with ⟨-, -, -, hup⟩ | ⟨-, -, hkept⟩ | ⟨-, -, hlocked, hadd⟩
      · rw [hup] at hfind
        cases hfind
        refine ⟨hown, ?_⟩
        rintro ⟨-, hexcl⟩
        cases hexcl
      · rw [hkept] at hfind
        cases hfind
        exact ⟨hown, hshared⟩
      · rw [hadd] at hfind
        cases hfind
        refine ⟨fun hmem => ?_, fun hboth => hshared ⟨hboth.1, hlocked⟩⟩
        rcases List.mem_append.1 hmem with hmem | hmem
        · exact hown hmem
        · exact hother (List.mem_singleton.1 hmem)

/-- A request that blocks beside nothing else in its table. -/
theorem aligned_blocked_iff {c : LockCall} (hs : Aligned s)
    (hblocked : s.manager.grantable c.txn c.key c.mode = false)
    (hwaiting : s'.waiting = s.waiting ++ [c]) (hheld : s'.manager.held = s.manager.held) :
    Aligned s' ↔ ¬ s.BlocksBeside (.call c) := by
  constructor
  · rintro hs' ⟨-, held, hmem, htable, hkey⟩
    have hfree := hs' c (by rw [hwaiting]; simp) held.1 held.2
      (by rw [hheld]; exact AssocMap.find_of_mem hmem) htable
    exact hkey hfree.1
  · intro hnot w hw key lock hfind htable
    rw [hwaiting] at hw
    rw [hheld] at hfind
    rcases List.mem_append.1 hw with hw | hw
    · exact hs w hw key lock hfind htable
    obtain rfl := List.mem_singleton.1 hw
    have hkey : key = w.key := by
      by_contra hne
      obtain ⟨A, B, hentries, -, -⟩ := AssocMap.exists_of_find hfind
      refine hnot ⟨hblocked, (key, lock), ?_, htable, hne⟩
      rw [hentries]
      exact List.mem_append_right _ List.mem_cons_self
    subst hkey
    -- otherwise the request would have been granted
    rw [LockManager.grantable, hfind] at hblocked
    simpa using hblocked

theorem aligned_step_iff (hs : Aligned s) (h : s.step e = some s') :
    Aligned s' ↔ ¬ s.Misleads e := by
  have hkept : ∀ lock : Lock, lock.holders.Sublist lock.holders := fun _ => List.Sublist.refl _
  cases e with
  | call c =>
    cases h
    unfold start
    -- a call is granted or waits, and misleads in the one way or in the other
    split_ifs with hgrant
    · have hnot : ¬ s.BlocksBeside (.call c) := fun hblocks => by
        rw [hblocks.1] at hgrant
        cases hgrant
      rw [Misleads, or_iff_left hnot]
      exact aligned_granted_iff hs rfl hgrant rfl rfl
    · have hblocked : s.manager.grantable c.txn c.key c.mode = false := by simpa using hgrant
      have hnot : ¬ s.GrantsBeside (.call c) := by
        rintro ⟨c', hc', hgrant', -⟩
        obtain rfl : c = c' := Option.some.inj hc'
        exact hgrant hgrant'
      rw [Misleads, or_iff_right hnot]
      exact aligned_blocked_iff hs hblocked rfl rfl
  | wake i =>
    obtain ⟨c, hc, rfl⟩ := Option.map_eq_some_iff.1 h
    have hnotBlocks : ¬ s.BlocksBeside (.wake i) := id
    rw [Misleads, or_iff_left hnotBlocks]
    unfold resume
    dsimp only
    split_ifs with hgrant
    · exact aligned_granted_iff hs hc hgrant rfl (LockManager.grant_held_congr rfl)
    · have hnot : ¬ s.GrantsBeside (.wake i) := by
        rintro ⟨c', hc', hgrant', -⟩
        obtain rfl : c = c' := Option.some.inj (hc.symm.trans hc')
        exact hgrant hgrant'
      -- who wakes up and is not granted changes nothing but his place in the queue
      refine iff_of_true ?_ hnot
      cases c.kind
      · exact hs.of_fewer (fun _ hw => hw) fun key lock hfind => ⟨lock, hfind, rfl, hkept lock⟩
      · exact hs
  -- whatever gives something up only takes edges away
  | timeout i =>
    refine iff_of_true ?_ (by rintro (⟨c, hc, -⟩ | hblocks) <;> contradiction)
    have hheld := timeout_held h
    refine hs.of_fewer ?_ ?_
    · intro w hw
      rcases step_waiting h w hw with hw | hcall
      · exact hw
      · cases hcall
    · intro key lock hfind
      rw [hheld] at hfind
      exact ⟨lock, hfind, rfl, hkept lock⟩
  | releaseKey txn key' =>
    refine iff_of_true ?_ (by rintro (⟨c, hc, -⟩ | hblocks) <;> contradiction)
    cases h
    refine hs.of_fewer (fun _ hw => hw) fun key lock' hfind => ?_
    rw [show _ = _ from LockManager.find_releaseKey key] at hfind
    split_ifs at hfind
    · exact find_released hfind
    · exact ⟨lock', hfind, rfl, hkept lock'⟩
  | release txn =>
    refine iff_of_true ?_ (by rintro (⟨c, hc, -⟩ | hblocks) <;> contradiction)
    cases h
    refine hs.of_fewer (fun _ hw => hw) fun key lock' hfind => ?_
    rw [show _ = _ from LockManager.find_release key] at hfind
    exact find_released hfind

theorem aligned_new : Aligned .new := fun _ hw => absurd hw List.not_mem_nil

/-- All states of a run are aligned exactly if none of its steps misleads the detector. -/
theorem aligned_iff {trace : List (LockSystem × LockEvent)} (h : LockRun trace s) :
    ((∀ p ∈ trace, Aligned p.1) ∧ Aligned s) ↔ ∀ p ∈ trace, ¬ p.1.Misleads p.2 := by
  refine h.forall_iff (I := fun _ => True) trivial aligned_new ?_
  intro s e s' _ hs hstep
  exact ⟨trivial, aligned_step_iff hs hstep⟩

end LockSystem

/-- In a run none of whose steps misleads the detector, a victim lies on a cycle of waits in every state
that is reached. In any other run it does so in the states where the table waits on the ways from it back
to it are real. -/
theorem victims_deadlocked [StandardLibrary] {trace : List (LockSystem × LockEvent)}
    {s : LockSystem} (h : LockRun trace s) (origin victim : UInt64)
    (hgood : (∀ p ∈ trace, ¬ p.1.Misleads p.2) ∨ s.CirclesReal origin)
    (hvictim : s.manager.detectCycle origin = some victim) :
    victim = origin ∧ s.Deadlocked origin := by
  rcases hgood with hgood | hreal
  · have haligned := ((LockSystem.aligned_iff h).2 hgood).2
    exact (haligned.circlesReal (LockSystem.queued_txns h) origin).sound hvictim
  · exact hreal.sound hvictim

/-- A call on a row of the table `t`. -/
def rowCall (txn : UInt64) (key : String) : LockEvent :=
  .call ⟨.acquireKey, txn, (ascii "t", ascii key), .exclusive⟩

/-- Two transactions wait for each other's tables, as the detector says. So they do when one of them waits
for a row beside another row that is held. -/
theorem victims_deadlocked_two_tables :
    (∃ trace s, LockRun trace s ∧ s.manager.detectCycle 1 = some 1 ∧ s.Deadlocked 1) ∧
    ∃ trace s, LockRun trace s ∧ (∃ p ∈ trace, p.1.Misleads p.2) ∧
      s.manager.detectCycle 1 = some 1 ∧ s.Deadlocked 1 := by
  constructor
  · set es := [tableCall 1 "a", tableCall 2 "b", tableCall 1 "b", tableCall 2 "a"]
    have hend : ∃ s, (follow LockSystem.step es .new).2 = some s ∧
        s.manager.detectCycle 1 = some 1 := ⟨_, rfl, by decide⟩
    obtain ⟨s, hs, hvictim⟩ := hend
    have hrun := Run.of_follow hs
    exact ⟨_, s, hrun, hvictim, (victims_deadlocked hrun 1 1 (Or.inl (by decide)) hvictim).2⟩
  · set es := [rowCall 1 "a", rowCall 1 "b", tableCall 2 "u", rowCall 2 "a", tableCall 1 "u"]
    have hend : ∃ s, (follow LockSystem.step es .new).2 = some s ∧
        s.manager.detectCycle 1 = some 1 ∧
        s.waiting = [⟨.acquireKey, 2, (ascii "t", ascii "a"), .exclusive⟩,
          ⟨.acquireKey, 1, tableKey (ascii "u"), .exclusive⟩] ∧
        s.manager.waiters.entries = [((ascii "t", ascii "a"), [⟨2, .exclusive⟩]),
          (tableKey (ascii "u"), [⟨1, .exclusive⟩])] ∧
        s.manager.held.entries = [((ascii "t", ascii "a"), ⟨.exclusive, [1]⟩),
          ((ascii "t", ascii "b"), ⟨.exclusive, [1]⟩), (tableKey (ascii "u"), ⟨.exclusive, [2]⟩)] :=
      ⟨_, rfl, by decide, by decide, by decide, by decide⟩
    obtain ⟨s, hs, hvictim, hwaiting, hwaiters, hheld⟩ := hend
    have hrun := Run.of_follow hs
    refine ⟨_, s, hrun, by decide, hvictim,
      (victims_deadlocked hrun 1 1 (Or.inr fun txn holder _ hwait _ => ?_) hvictim).2⟩
    obtain ⟨table, -, hwaits, hholds⟩ := hwait
    obtain ⟨e, he, rfl, htxn⟩ := LockManager.exists_of_waitsAt hwaits
    obtain ⟨e', he', htable, hholder⟩ := LockManager.exists_of_holdsAt hholds
    rw [hwaiters, List.mem_pair] at he
    rw [hheld] at he'
    simp only [List.mem_cons, List.not_mem_nil, or_false] at he'
    have hrow := AssocMap.find_of_mem (m := s.manager.held) (hheld ▸ List.mem_cons_self)
    have htableLock := AssocMap.find_of_mem (m := s.manager.held)
      (hheld ▸ List.mem_cons_of_mem _ (List.mem_cons_of_mem _ List.mem_cons_self))
    rcases he with rfl | rfl
    · obtain rfl : txn = 2 := by simpa using htxn
      obtain rfl : holder = 1 := by
        rcases he' with rfl | rfl | rfl
        · exact List.mem_singleton.1 hholder
        · exact List.mem_singleton.1 hholder
        · exact absurd htable (by decide)
      exact ⟨_, hwaiting ▸ List.mem_cons_self, rfl, _, hrow, by decide, by decide, by decide⟩
    · obtain rfl : txn = 1 := by simpa using htxn
      obtain rfl : holder = 2 := by
        rcases he' with rfl | rfl | rfl
        · exact absurd htable (by decide)
        · exact absurd htable (by decide)
        · exact List.mem_singleton.1 hholder
      exact ⟨_, hwaiting ▸ List.mem_cons_of_mem _ List.mem_cons_self, rfl, _, htableLock, by decide,
        by decide, by decide⟩

/-- A transaction holds one row of a table and waits for another one, whose holder runs: the detector
takes it for its own obstacle and names it a victim, and there is no cycle at all. -/
theorem row_locks_false_victim : ∃ trace s, LockRun trace s ∧
    s.manager.detectCycle 1 = some 1 ∧ ¬ s.Deadlocked 1 := by
  set es := [rowCall 1 "a", rowCall 2 "b", rowCall 1 "b"]
  have hend : ∃ s, (follow LockSystem.step es .new).2 = some s ∧ s.manager.detectCycle 1 = some 1 ∧
      s.waiting = [⟨.acquireKey, 1, (ascii "t", ascii "b"), .exclusive⟩] ∧
      s.manager.held.find (ascii "t", ascii "b") = some ⟨.exclusive, [2]⟩ :=
    ⟨_, rfl, by decide, by decide, by decide⟩
  obtain ⟨s, hs, hvictim, hwaiting, hlock⟩ := hend
  refine ⟨_, s, Run.of_follow hs, hvictim, fun hcycle => ?_⟩
  -- only the first transaction waits, and it waits for the second one
  have hedge : ∀ x y, s.WaitsFor x y → x = 1 ∧ y = 2 := by
    rintro x y ⟨c, hc, rfl, lock, hfind, hmem, -, -⟩
    rw [hwaiting] at hc
    obtain rfl := List.mem_singleton.1 hc
    rw [hlock] at hfind
    cases hfind
    exact ⟨rfl, List.mem_singleton.1 hmem⟩
  obtain ⟨y, -, hlast⟩ := Relation.TransGen.tail'_iff.1 hcycle
  exact absurd (hedge y 1 hlast).2 (by decide)

end OpenDB
