import Mathlib.Logic.Relation
import OpenDB.Core.DeadlockDetector
import OpenDB.Core.LockBookkeeping
import OpenDB.Library.Pursuit

/-!
# Wait chains

What the detector's walk finds. `LeadsBack` is the chain it follows, from a table to the first holder
that waits, to the table that one waits for, and so on back to the origin.

On exclusive table locks a table has one holder and a transaction waits for one table, so the chain is
the pursuit of the origin along the partial function `next`: the detector reports a cycle exactly if
some number of steps, from 1 to 1024, leads from the origin back to it (`detectCycle_exact`).
-/

set_option autoImplicit false

namespace OpenDB

open OpenDB.Library

namespace LockManager

variable {m : LockManager} {origin txn victim : UInt64} {table : Bytes} {n : Nat}

/-! ## Holders and waiters of a table -/

/-- The transaction is in the wait queue of the table or of a row of it. -/
def WaitsAt (m : LockManager) (txn : UInt64) (table : Bytes) : Prop :=
  ∃ key : ResourceKey, key.1 = table ∧ txn ∈ (m.queue key).map Waiter.txn

/-- The transaction holds a lock on the table or on a row of it. -/
def HoldsAt (m : LockManager) (txn : UInt64) (table : Bytes) : Prop :=
  ∃ key lock, m.held.find key = some lock ∧ key.1 = table ∧ txn ∈ lock.holders

/-- The transaction waits for a table that the other one holds a lock on. -/
def TableWait (m : LockManager) (txn holder : UInt64) : Prop :=
  ∃ table ≠ [], m.WaitsAt txn table ∧ m.HoldsAt holder table

/-- Some way leads from the transaction back to it. -/
def OnCircle (m : LockManager) (txn : UInt64) : Prop := Relation.TransGen m.TableWait txn txn

theorem exists_of_waitsAt (h : m.WaitsAt txn table) :
    ∃ e ∈ m.waiters.entries, e.1.1 = table ∧ txn ∈ e.2.map Waiter.txn := by
  obtain ⟨key, hkey, hmem⟩ := h
  rw [queue] at hmem
  cases hfind : m.waiters.find key with
  | none =>
    rw [hfind] at hmem
    cases hmem
  | some q =>
    obtain ⟨A, B, hentries, -, -⟩ := AssocMap.exists_of_find hfind
    rw [hfind] at hmem
    refine ⟨(key, q), ?_, hkey, hmem⟩
    rw [hentries]
    exact List.mem_append_right _ List.mem_cons_self

theorem exists_of_holdsAt (h : m.HoldsAt txn table) :
    ∃ e ∈ m.held.entries, e.1.1 = table ∧ txn ∈ e.2.holders := by
  obtain ⟨key, lock, hfind, hkey, hmem⟩ := h
  obtain ⟨A, B, hentries, -, -⟩ := AssocMap.exists_of_find hfind
  refine ⟨(key, lock), ?_, hkey, hmem⟩
  rw [hentries]
  exact List.mem_append_right _ List.mem_cons_self

variable [StandardLibrary]

theorem mem_getHolders :
    txn ∈ m.getHolders table ↔
      ∃ key lock, m.held.find key = some lock ∧ key.1 = table ∧ txn ∈ lock.holders := by
  rw [getHolders]
  simp only [StandardLibrary.mem_iterate, List.mem_dedup, List.mem_flatMap, List.mem_filter, decide_eq_true_eq]
  constructor
  · rintro ⟨e, ⟨he, htable⟩, hmem⟩
    exact ⟨e.1, e.2, AssocMap.find_of_mem he, htable, hmem⟩
  · rintro ⟨key, lock, hfind, htable, hmem⟩
    obtain ⟨A, B, hentries, -, -⟩ := AssocMap.exists_of_find hfind
    refine ⟨(key, lock), ⟨?_, htable⟩, hmem⟩
    rw [hentries]
    exact List.mem_append_right _ List.mem_cons_self

theorem mem_queue_of_find {e : ResourceKey × List Waiter}
    (h : ((StandardLibrary.iterate m.waiters.entries).find? fun e => e.2.any fun w => w.txn == txn) =
      some e) :
    txn ∈ (m.queue e.1).map Waiter.txn := by
  have hqueue : m.queue e.1 = e.2 := by
    have hmem := StandardLibrary.mem_iterate.1 (List.mem_of_find?_eq_some h)
    rw [queue, AssocMap.find_of_mem hmem, Option.getD_some]
  have hany := List.find?_some h
  obtain ⟨w, hw, htxn⟩ := List.any_eq_true.1 hany
  rw [hqueue]
  exact List.mem_map.2 ⟨w, hw, eq_of_beq htxn⟩

/-- A transaction whose wait is found waits in the queue of the resource. -/
theorem mem_queue_waiterResource (h : m.waiterResource txn ≠ ([], [])) :
    txn ∈ (m.queue (m.waiterResource txn)).map Waiter.txn := by
  rw [waiterResource] at h ⊢
  cases hfind : (StandardLibrary.iterate m.waiters.entries).find? fun e =>
      e.2.any fun w => w.txn == txn with
  | none =>
    rw [hfind] at h
    exact absurd rfl h
  | some e => exact mem_queue_of_find hfind

/-- The wait of a transaction that is in some queue is found. -/
theorem mem_queue_waiterResource_of_mem {key : ResourceKey}
    (h : txn ∈ (m.queue key).map Waiter.txn) :
    txn ∈ (m.queue (m.waiterResource txn)).map Waiter.txn := by
  obtain ⟨w, hw, rfl⟩ := List.mem_map.1 h
  have hq : ∃ q, m.waiters.find key = some q ∧ w ∈ q := by
    rw [queue] at hw
    cases hfind : m.waiters.find key with
    | none =>
      rw [hfind] at hw
      cases hw
    | some q =>
      rw [hfind] at hw
      exact ⟨q, rfl, hw⟩
  obtain ⟨q, hfind, hmem⟩ := hq
  obtain ⟨A, B, hentries, -, -⟩ := AssocMap.exists_of_find hfind
  -- so the search over the entries does not fail
  have hsome : ((StandardLibrary.iterate m.waiters.entries).find? fun e =>
      e.2.any fun w' => w'.txn == w.txn).isSome := by
    rw [List.find?_isSome]
    refine ⟨(key, q), StandardLibrary.mem_iterate.2 ?_,
      List.any_eq_true.2 ⟨w, hmem, beq_self_eq_true _⟩⟩
    rw [hentries]
    exact List.mem_append_right _ List.mem_cons_self
  obtain ⟨e, he⟩ := Option.isSome_iff_exists.1 hsome
  rw [waiterResource]
  rw [he]
  exact mem_queue_of_find he

/-! ## The chain of the walk -/

/-- From the table, along the first holder of each table that waits, the walk is back at the origin
after the number of hops. -/
inductive LeadsBack (m : LockManager) (origin : UInt64) : Nat → Bytes → Prop where
  | closes {table : Bytes} {before after : List UInt64}
      (hholders : m.getHolders table = before ++ origin :: after)
      (hbefore : ∀ h ∈ before, h ≠ origin ∧ m.waiterTable h = []) : LeadsBack m origin 1 table
  | hop {n : Nat} {table : Bytes} {before after : List UInt64} {holder : UInt64}
      (hholders : m.getHolders table = before ++ holder :: after)
      (hbefore : ∀ h ∈ before, h ≠ origin ∧ m.waiterTable h = []) (hother : holder ≠ origin)
      (hwaits : m.waiterTable holder ≠ []) (hrest : LeadsBack m origin n (m.waiterTable holder)) :
      LeadsBack m origin (n + 1) table

theorem hop_append {before after : List UInt64}
    (hbefore : ∀ h ∈ before, h ≠ origin ∧ m.waiterTable h = []) :
    m.hop origin (before ++ after) = m.hop origin after := by
  -- the holders before are passed over one by one
  induction before with
  | nil => rfl
  | cons h before ih =>
    obtain ⟨hne, hidle⟩ := hbefore h List.mem_cons_self
    rw [List.cons_append, hop, if_neg hne, if_pos (by rw [hidle]; rfl)]
    exact ih fun x hx => hbefore x (List.mem_cons_of_mem _ hx)

/-- Where the holders of a table lead: they are passed over up to the first one that is the origin or
waits. -/
theorem hop_cases (m : LockManager) (origin : UInt64) (holders : List UInt64) :
    (∃ before after, holders = before ++ origin :: after ∧
      (∀ h ∈ before, h ≠ origin ∧ m.waiterTable h = []) ∧ m.hop origin holders = .closed) ∨
    (∃ before after holder, holders = before ++ holder :: after ∧
      (∀ h ∈ before, h ≠ origin ∧ m.waiterTable h = []) ∧ holder ≠ origin ∧
      m.waiterTable holder ≠ [] ∧ m.hop origin holders = .next (m.waiterTable holder)) ∨
    ((∀ h ∈ holders, h ≠ origin ∧ m.waiterTable h = []) ∧ m.hop origin holders = .ended) := by
  induction holders with
  | nil => exact Or.inr (Or.inr ⟨fun h hh => absurd hh List.not_mem_nil, rfl⟩)
  | cons holder rest ih =>
    by_cases horigin : holder = origin
    · subst horigin
      refine Or.inl ⟨[], rest, rfl, fun h hh => absurd hh List.not_mem_nil, ?_⟩
      rw [hop, if_pos rfl]
    by_cases hidle : m.waiterTable holder = []
    · -- this holder runs, so the others decide
      have hpassed : m.hop origin (holder :: rest) = m.hop origin rest := by
        rw [hop, if_neg horigin, if_pos (by rw [hidle]; rfl)]
      rw [hpassed]
      have hgrow : ∀ before : List UInt64, (∀ h ∈ before, h ≠ origin ∧ m.waiterTable h = []) →
          ∀ h ∈ holder :: before, h ≠ origin ∧ m.waiterTable h = [] := by
        intro before hbefore h hh
        rcases List.mem_cons.1 hh with rfl | hh
        · exact ⟨horigin, hidle⟩
        · exact hbefore h hh
      rcases ih with ⟨before, after, rfl, hbefore, hhop⟩ | ⟨before, after, x, rfl, hbefore, hx, hhop⟩ |
        ⟨hall, hhop⟩
      · exact Or.inl ⟨holder :: before, after, rfl, hgrow _ hbefore, hhop⟩
      · exact Or.inr (Or.inl ⟨holder :: before, after, x, rfl, hgrow _ hbefore, hx, hhop⟩)
      · exact Or.inr (Or.inr ⟨hgrow _ hall, hhop⟩)
    · -- the first holder waits, and the walk takes no other
      refine Or.inr (Or.inl ⟨[], rest, holder, rfl, fun h hh => absurd hh List.not_mem_nil, horigin,
        hidle, ?_⟩)
      rw [hop, if_neg horigin, if_neg (by rwa [List.isEmpty_iff])]

theorem walk_eq_some_iff :
    m.walk origin n table = some victim ↔ victim = origin ∧ ∃ k ≤ n, LeadsBack m origin k table := by
  induction n generalizing table with
  | zero =>
    refine iff_of_false (by simp [walk]) ?_
    rintro ⟨-, k, hk, hback⟩
    cases hback <;> omega
  | succ n ih =>
    rw [walk]
    constructor
    · intro h
      rcases hop_cases m origin (m.getHolders table) with ⟨before, after, hholders, hbefore, hhop⟩ |
        ⟨before, after, holder, hholders, hbefore, hother, hwaits, hhop⟩ | ⟨-, hhop⟩
      · rw [hhop] at h
        cases h
        -- the origin is met
        exact ⟨rfl, 1, by omega, .closes hholders hbefore⟩
      · rw [hhop] at h
        -- one table further
        obtain ⟨hvictim, k, hk, hback⟩ := ih.1 h
        exact ⟨hvictim, k + 1, by omega, .hop hholders hbefore hother hwaits hback⟩
      · rw [hhop] at h
        cases h
    · rintro ⟨rfl, k, hk, hback⟩
      -- a chain of the definition is the one that the walk takes
      cases hback with
      | closes hholders hbefore =>
        rw [hholders, hop_append hbefore, hop, if_pos rfl]
      | @hop k _ _ _ holder hholders hbefore hother hwaits hrest =>
        rw [hholders, hop_append hbefore, hop, if_neg hother,
          if_neg (by rwa [List.isEmpty_iff])]
        exact ih.2 ⟨rfl, k, by omega, hrest⟩

/-- The detector reports the origin, and does so exactly if the chain of its wait leads back to it. -/
theorem detectCycle_eq_some_iff :
    m.detectCycle origin = some victim ↔ victim = origin ∧ m.waiterTable origin ≠ [] ∧
      ∃ k ≤ 1024, LeadsBack m origin k (m.waiterTable origin) := by
  rw [detectCycle]
  by_cases hwaits : m.waiterTable origin = []
  · -- not blocked: the detector does not start
    rw [if_pos (by rw [hwaits]; rfl)]
    refine iff_of_false (by simp) ?_
    rintro ⟨-, hne, -⟩
    exact hne hwaits
  · rw [if_neg (by rwa [List.isEmpty_iff]), walk_eq_some_iff]
    exact and_congr_right fun _ => (and_iff_right hwaits).symm

theorem waitsAt_waiterTable (h : m.waiterTable txn ≠ []) : m.WaitsAt txn (m.waiterTable txn) := by
  have hfound : m.waiterResource txn ≠ ([], []) := fun hnone => h (congrArg Prod.fst hnone)
  exact ⟨_, rfl, mem_queue_waiterResource hfound⟩

theorem waitsAt_waiterTable_of_waitsAt (h : m.WaitsAt txn table) :
    m.WaitsAt txn (m.waiterTable txn) := by
  obtain ⟨key, -, hmem⟩ := h
  exact ⟨_, rfl, mem_queue_waiterResource_of_mem hmem⟩

/-- The chain of the walk is a way back. -/
theorem LeadsBack.reaches {n : Nat} (h : m.LeadsBack txn n table) :
    ∃ holder, m.HoldsAt holder table ∧ Relation.ReflTransGen m.TableWait holder txn := by
  induction h with
  | @closes table before after hholders _ =>
    refine ⟨txn, mem_getHolders.1 ?_, .refl⟩
    rw [hholders]
    exact List.mem_append_right _ List.mem_cons_self
  | @hop n table before after holder hholders _ _ hwaits _ ih =>
    obtain ⟨next, hnext, hway⟩ := ih
    refine ⟨holder, mem_getHolders.1 ?_,
      .head ⟨_, hwaits, waitsAt_waiterTable hwaits, hnext⟩ hway⟩
    rw [hholders]
    exact List.mem_append_right _ List.mem_cons_self

theorem onCircle_of_detectCycle {victim : UInt64} (h : m.detectCycle txn = some victim) :
    m.OnCircle txn := by
  obtain ⟨-, hwaits, k, -, hback⟩ := detectCycle_eq_some_iff.1 h
  obtain ⟨holder, hholder, hway⟩ := hback.reaches
  exact .head' ⟨_, hwaits, waitsAt_waiterTable hwaits, hholder⟩ hway

end LockManager

namespace LockSystem

variable {s s' : LockSystem} {e : LockEvent} {txn origin : UInt64} {n : Nat}

/-! ## Blocked requests and recorded waits -/

theorem mem_queue_iff (hs : Queued Waiter.txn s) {key : ResourceKey} :
    txn ∈ (s.manager.queue key).map Waiter.txn ↔ ∃ c ∈ s.waiting, c.key = key ∧ c.txn = txn := by
  rw [(hs key).mem_iff, List.mem_map]
  simp only [blockedOn, List.mem_filter, decide_eq_true_eq, and_assoc]
  rfl

/-- A wait that is found is that of a blocked request. -/
theorem exists_blocked [StandardLibrary] (hs : Queued Waiter.txn s)
    (h : s.manager.waiterTable txn ≠ []) :
    ∃ c ∈ s.waiting, c.txn = txn ∧ c.key = s.manager.waiterResource txn := by
  have hfound : s.manager.waiterResource txn ≠ ([], []) := by
    intro hnone
    exact h (congrArg Prod.fst hnone)
  obtain ⟨c, hc, hkey, htxn⟩ := (mem_queue_iff hs).1 (LockManager.mem_queue_waiterResource hfound)
  exact ⟨c, hc, htxn, hkey⟩

/-- The wait of a transaction with one blocked request is found. -/
theorem waiterResource_of_blocked [StandardLibrary] (hs : Queued Waiter.txn s) (hone : OnePending s)
    {c : LockCall} (hc : c ∈ s.waiting) : s.manager.waiterResource c.txn = c.key := by
  have hmem := (mem_queue_iff hs).2 ⟨c, hc, rfl, rfl⟩
  obtain ⟨c', hc', hkey, htxn⟩ :=
    (mem_queue_iff hs).1 (LockManager.mem_queue_waiterResource_of_mem hmem)
  obtain rfl : c' = c := List.inj_on_of_nodup_map hone hc' hc htxn
  exact hkey.symm

/-! ## Exclusive table locks -/

/-- All locks, held or asked for, are exclusive locks on tables with a name, and a held one has its one
holder. -/
structure ExclusiveTables (s : LockSystem) : Prop where
  held : ∀ key lock, s.manager.held.find key = some lock →
    key = tableKey key.1 ∧ ∃ holder, lock = ⟨.exclusive, [holder]⟩
  waiting : ∀ c ∈ s.waiting, c.mode = .exclusive ∧ c.key = tableKey c.key.1 ∧ c.key.1 ≠ []

/-- The request is for an exclusive lock on a table with a name. -/
def AsksTable : LockEvent → Prop
  | .call c => c.mode = .exclusive ∧ c.key = tableKey c.key.1 ∧ c.key.1 ≠ []
  | _ => True

instance : (e : LockEvent) → Decidable (AsksTable e)
  | .call c =>
    inferInstanceAs (Decidable (c.mode = .exclusive ∧ c.key = tableKey c.key.1 ∧ c.key.1 ≠ []))
  | .wake _ | .timeout _ | .releaseKey _ _ | .release _ => inferInstanceAs (Decidable True)

theorem AsksTable.request {c : LockCall} (he : AsksTable e) (hs : ExclusiveTables s)
    (hc : s.request e = some c) : c.mode = .exclusive ∧ c.key = tableKey c.key.1 ∧ c.key.1 ≠ [] := by
  cases e with
  | call c' =>
    cases hc
    exact he
  | wake i => exact hs.waiting c (List.mem_of_getElem? hc)
  | timeout i => cases hc
  | releaseKey txn key => cases hc
  | release txn => cases hc

/-- A transaction that waits after a step did so before, or has just asked. -/
theorem step_waiting (h : s.step e = some s') :
    ∀ c ∈ s'.waiting, c ∈ s.waiting ∨ e = .call c := by
  intro c hc
  cases e with
  | call c' =>
    cases h
    unfold start at hc
    split_ifs at hc with hgrant
    · exact Or.inl hc
    · rcases List.mem_append.1 hc with hc | hc
      · exact Or.inl hc
      · exact Or.inr (congrArg _ (List.mem_singleton.1 hc).symm)
  | wake i =>
    obtain ⟨c', hc', rfl⟩ := Option.map_eq_some_iff.1 h
    unfold resume at hc
    dsimp only at hc
    split_ifs at hc with hgrant
    · exact Or.inl (List.mem_of_mem_eraseIdx hc)
    · cases hkind : c'.kind <;> rw [hkind] at hc <;> exact Or.inl hc
  | timeout i =>
    dsimp only [LockSystem.step] at h
    split at h
    · cases h
      exact Or.inl (List.mem_of_mem_eraseIdx hc)
    · cases h
  | releaseKey txn key =>
    cases h
    exact Or.inl hc
  | release txn =>
    cases h
    exact Or.inl hc

theorem ExclusiveTables.step (hs : ExclusiveTables s) (hne : HasHolders s'.manager)
    (he : AsksTable e) (h : s.step e = some s') : ExclusiveTables s' := by
  refine ⟨fun key lock' hfind => ?_, fun c hc => ?_⟩
  · rcases step_cases h with hold | ⟨c, hc, hgrant, hheld⟩
    · -- a lock of one holder that has lost none still has that one
      obtain ⟨lock, hlock, hmode, hsub⟩ := hold key lock' hfind
      obtain ⟨hkey, holder, rfl⟩ := hs.held key lock hlock
      refine ⟨hkey, holder, ?_⟩
      have hholders : lock'.holders = [holder] :=
        hsub.eq_of_length_le (List.length_pos_of_ne_nil (hne key lock' hfind))
      obtain ⟨mode, holders⟩ := lock'
      cases hmode
      cases hholders
      rfl
    · obtain ⟨hmode, htable, -⟩ := he.request hs hc
      rw [hheld] at hfind
      by_cases hkey : key = c.key
      · subst hkey
        refine ⟨htable, ?_⟩
        -- a new lock, or one that was exclusive before and can only be granted to its holder again
        rcases LockManager.find_grant_self hgrant with ⟨-, hnew⟩ | ⟨lock, hlock, hcases⟩
        · rw [hnew, hmode] at hfind
          cases hfind
          exact ⟨c.txn, rfl⟩
        · obtain ⟨-, holder, rfl⟩ := hs.held _ lock hlock
          rcases hcases with ⟨-, -, hshared, -⟩ | ⟨-, -, hsame⟩ | ⟨-, hshared, -⟩
          · cases hshared
          · rw [hsame] at hfind
            cases hfind
            exact ⟨holder, rfl⟩
          · rw [hmode] at hshared
            cases hshared
      · rw [LockManager.find_grant_of_ne hkey] at hfind
        exact hs.held key lock' hfind
  · rcases step_waiting h c hc with hold | rfl
    · exact hs.waiting c hold
    · exact he

/-- A run whose calls all ask for exclusive locks on tables. -/
theorem exclusiveTables_run {trace : List (LockSystem × LockEvent)} (h : LockRun trace s)
    (hasks : ∀ p ∈ trace, AsksTable p.2) : ExclusiveTables s := by
  have hboth : ExclusiveTables s ∧ HasHolders s.manager := by
    refine h.invariant_of_forall (P := fun s => ExclusiveTables s ∧ HasHolders s.manager)
      (B := fun _ e => ¬ AsksTable e) ?_ ?_ fun p hp => not_not_intro (hasks p hp)
    · refine ⟨⟨?_, fun c hc => absurd hc List.not_mem_nil⟩, ?_⟩ <;> intro key lock hfind <;> cases hfind
    · rintro s e s' ⟨hs, hne⟩ hstep hgood
      have hne' := step_hasHolders hstep hne
      exact ⟨hs.step hne' (not_not.1 hgood) hstep, hne'⟩
  exact hboth.1

/-- The holder of the table that the transaction waits for. -/
def next (s : LockSystem) (txn : UInt64) : Option UInt64 :=
  match s.waiting.find? fun c => c.txn = txn with
  | none => none
  | some c =>
    match s.manager.held.find c.key with
    | none => none
    | some lock => lock.holders.head?

theorem find_waiting (hone : OnePending s) {c : LockCall} (hc : c ∈ s.waiting) :
    s.waiting.find? (fun c' => c'.txn = c.txn) = some c := by
  have hsome : (s.waiting.find? fun c' => c'.txn = c.txn).isSome := by
    rw [List.find?_isSome]
    exact ⟨c, hc, by simp⟩
  obtain ⟨c', hc'⟩ := Option.isSome_iff_exists.1 hsome
  have htxn : c'.txn = c.txn := by simpa using List.find?_some hc'
  rw [hc', List.inj_on_of_nodup_map hone (List.mem_of_find?_eq_some hc') hc htxn]

/-- A transaction has no blocked request, or one. -/
theorem next_cases (hone : OnePending s) (txn : UInt64) :
    (∃ c ∈ s.waiting, c.txn = txn ∧
      s.next txn = (s.manager.held.find c.key).bind fun lock => lock.holders.head?) ∨
    ((∀ c ∈ s.waiting, c.txn ≠ txn) ∧ s.next txn = none) := by
  by_cases hwaits : ∃ c ∈ s.waiting, c.txn = txn
  · obtain ⟨c, hc, rfl⟩ := hwaits
    refine Or.inl ⟨c, hc, rfl, ?_⟩
    rw [next]
    rw [find_waiting hone hc]
    dsimp only
    cases s.manager.held.find c.key <;> rfl
  · have hnone : ∀ c ∈ s.waiting, c.txn ≠ txn := fun c hc htxn => hwaits ⟨c, hc, htxn⟩
    refine Or.inr ⟨hnone, ?_⟩
    have hfind : s.waiting.find? (fun c => c.txn = txn) = none := by
      rw [List.find?_eq_none]
      intro c hc
      simpa using hnone c hc
    rw [next]
    rw [hfind]

variable [StandardLibrary]

theorem waiterTable_of_not_blocked (hs : Queued Waiter.txn s) (h : ∀ c ∈ s.waiting, c.txn ≠ txn) :
    s.manager.waiterTable txn = [] := by
  by_contra hne
  obtain ⟨c, hc, htxn, -⟩ := exists_blocked hs hne
  exact h c hc htxn

/-- The holders of a table when only tables are locked. -/
theorem getHolders_table (hs : ExclusiveTables s) (table : Bytes) :
    s.manager.getHolders table =
      match s.manager.held.find (tableKey table) with
      | none => []
      | some lock => lock.holders := by
  have hother : ∀ e ∈ s.manager.held.entries, e.1 ≠ tableKey table → e.1.1 ≠ table := by
    rintro e he hne rfl
    exact hne (hs.held e.1 e.2 (AssocMap.find_of_mem he)).1
  rw [LockManager.getHolders]
  -- the filter keeps the entry of the table key and no other
  cases hfind : s.manager.held.find (tableKey table) with
  | none =>
    have hempty : s.manager.held.entries.filter (fun e => e.1.1 = table) = [] := by
      refine List.filter_eq_nil_iff.2 fun e he => ?_
      have hkey : e.1 ≠ tableKey table := by
        intro hkey
        have hsome := AssocMap.find_of_mem he
        rw [hkey, hfind] at hsome
        cases hsome
      simpa using hother e he hkey
    rw [hempty]
    exact StandardLibrary.iterate_nil
  | some lock =>
    obtain ⟨A, B, hentries, hA, hB⟩ := AssocMap.exists_of_find hfind
    have hnone : ∀ C : List (ResourceKey × Lock), (∀ e ∈ C, e ∈ s.manager.held.entries) →
        tableKey table ∉ C.map Prod.fst → C.filter (fun e => e.1.1 = table) = [] := by
      intro C hC hnot
      refine List.filter_eq_nil_iff.2 fun e he => ?_
      have hkey : e.1 ≠ tableKey table := fun hkey => hnot (List.mem_map.2 ⟨e, he, hkey⟩)
      simpa using hother e (hC e he) hkey
    have hone : s.manager.held.entries.filter (fun e => e.1.1 = table) = [(tableKey table, lock)] := by
      rw [hentries, List.filter_append, List.filter_cons_of_pos (by simp [tableKey]),
        hnone A (fun e he => by rw [hentries]; simp [he]) hA,
        hnone B (fun e he => by rw [hentries]; simp [he]) hB, List.nil_append]
    obtain ⟨-, holder, rfl⟩ := hs.held _ _ hfind
    rw [hone]
    exact StandardLibrary.iterate_singleton

/-- From the table of a blocked request the walk is the pursuit of the origin. -/
theorem walk_eq (hqueued : Queued Waiter.txn s) (hone : OnePending s) (hs : ExclusiveTables s)
    {c : LockCall} (hc : c ∈ s.waiting) :
    s.manager.walk origin n c.key.1 = if pursues s.next origin n c.txn then some origin else none := by
  induction n generalizing c with
  | zero => rfl
  | succ n ih =>
    have hnext : s.next c.txn =
        -- the request is the only one of its transaction, so `next` looks at its table
        (s.manager.held.find c.key).bind fun lock => lock.holders.head? := by
      rcases next_cases hone c.txn with ⟨c', hc', htxn, hnext⟩ | ⟨hnone, -⟩
      · obtain rfl : c' = c := List.inj_on_of_nodup_map hone hc' hc htxn
        exact hnext
      · exact absurd rfl (hnone c hc)
    rw [LockManager.walk, getHolders_table hs, ← (hs.waiting c hc).2.1]
    cases hfind : s.manager.held.find c.key with
    | none =>
      rw [hfind] at hnext
      rw [pursues_succ_of_none hnext]
      rfl
    | some lock =>
      obtain ⟨-, holder, rfl⟩ := hs.held _ _ hfind
      rw [hfind] at hnext
      rw [pursues_succ (show s.next c.txn = some holder from hnext)]
      dsimp only
      by_cases horigin : holder = origin
      · rw [LockManager.hop, if_pos horigin]
        simp [horigin]
      rw [LockManager.hop, if_neg horigin]
      rcases next_cases hone holder with ⟨c', hc', rfl, -⟩ | ⟨hnone, hend⟩
      · -- the holder waits itself
        have htable : s.manager.waiterTable c'.txn = c'.key.1 := by
          rw [LockManager.waiterTable, waiterResource_of_blocked hqueued hone hc']
        rw [htable, if_neg (by rw [List.isEmpty_iff]; exact (hs.waiting c' hc').2.2)]
        simpa [horigin] using ih hc'
      · -- the holder runs, and nothing leads on from it
        rw [waiterTable_of_not_blocked hqueued hnone, if_pos (by rfl)]
        have hlost : pursues s.next origin n holder = false := by
          cases n with
          | zero => rfl
          | succ n => exact pursues_succ_of_none hend
        simp [LockManager.hop, horigin, hlost]

end LockSystem

/-- On exclusive table locks, with at most one request of a transaction pending at a time, the detector
reports the origin exactly if between 1 and 1024 steps along the holders of the tables waited for lead
back to it. -/
theorem detectCycle_exact [StandardLibrary] {trace : List (LockSystem × LockEvent)} {s : LockSystem}
    (h : LockRun trace s) (halone : ∀ p ∈ trace, LockSystem.AsksAlone p.1 p.2)
    (hs : s.ExclusiveTables) (origin : UInt64) :
    ((∃ k, 1 ≤ k ∧ k ≤ 1024 ∧ steps s.next k origin = some origin) →
      s.manager.detectCycle origin = some origin) ∧
    ((¬ ∃ k, 1 ≤ k ∧ k ≤ 1024 ∧ steps s.next k origin = some origin) →
      s.manager.detectCycle origin = none) := by
  have hqueued := LockSystem.queued_txns h
  have hone := (LockSystem.pending_run h halone).1
  have hwalk : s.manager.detectCycle origin =
      if pursues s.next origin 1024 origin then some origin else none := by
    rw [LockManager.detectCycle]
    rcases LockSystem.next_cases hone origin with ⟨c, hc, rfl, -⟩ | ⟨hnone, hend⟩
    · have htable : s.manager.waiterTable c.txn = c.key.1 := by
        rw [LockManager.waiterTable, LockSystem.waiterResource_of_blocked hqueued hone hc]
      rw [htable, if_neg (by rw [List.isEmpty_iff]; exact (hs.waiting c hc).2.2)]
      exact LockSystem.walk_eq hqueued hone hs hc
    · rw [LockSystem.waiterTable_of_not_blocked hqueued hnone, if_pos (by rfl),
        pursues_succ_of_none hend]
      rfl
  -- the walk of the detector is the pursuit, which is exact up to its bound
  rw [← pursues_iff, hwalk]
  exact ⟨fun hfound => if_pos hfound, fun hnot => if_neg hnot⟩

/-- A call on a table. -/
def tableCall (txn : UInt64) (table : String) : LockEvent :=
  .call ⟨.acquireKey, txn, tableKey (ascii table), .exclusive⟩

/-- Two transactions wait for each other, and a third one waits for one of them: the detector reports
the first, and for the third, whose chain enters the cycle and misses it, nothing. -/
theorem detectCycle_exact_cycle_and_tail : ∃ trace s, LockRun trace s ∧
    s.manager.detectCycle 1 = some 1 ∧ s.manager.detectCycle 3 = none := by
  set es := [tableCall 1 "a", tableCall 2 "b", tableCall 1 "b", tableCall 2 "a", tableCall 3 "a"]
  have hend : ∃ s, (follow LockSystem.step es .new).2 = some s ∧ s.next 1 = some 2 ∧
      s.next 2 = some 1 ∧ s.next 3 = some 1 := ⟨_, rfl, by decide, by decide, by decide⟩
  obtain ⟨s, hs, h1, h2, h3⟩ := hend
  have hrun := Run.of_follow hs
  have hexact := detectCycle_exact hrun (by decide)
    (LockSystem.exclusiveTables_run hrun (by decide))
  refine ⟨_, s, hrun, (hexact 1).1 ⟨2, by decide, by decide, ?_⟩, (hexact 3).2 ?_⟩
  · rw [steps_succ h1, steps_succ h2, steps_zero]
  · -- from 1 and 2 on the steps stay in the cycle
    have hcycle : ∀ k, steps s.next k 1 ≠ some 3 ∧ steps s.next k 2 ≠ some 3 := by
      intro k
      induction k with
      | zero => simp
      | succ k ih =>
        rw [steps_succ h1, steps_succ h2]
        exact ⟨ih.2, ih.1⟩
    rintro ⟨k, hpos, -, hk⟩
    obtain ⟨k, rfl⟩ := Nat.exists_eq_add_one.2 hpos
    rw [steps_succ h3] at hk
    exact (hcycle k).1 hk

end OpenDB
