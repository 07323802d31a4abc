import OpenDB.Storage.InMemoryStorageEngine

/-!
# Noninterference of aborted transactions

A history with the calls of a transaction that never commits, and the same history without them. The
engines of the two runs correspond (`Without`): a chain of the second is the chain of the first less
the versions of that transaction, which are all staged and so invisible to the others. Keys may stand
for each other here: the chain that the transaction has opened under one key is opened in the second
run under another key of the same position.
-/

set_option autoImplicit false

namespace OpenDB

open OpenDB.Library

namespace InMemory

/-- A version that the transaction did not write. -/
def isForeign (txn : UInt64) (v : Version) : Bool := v.txnId != txn

/-- The second store is the first without the versions of the transaction. -/
structure Without (txn : UInt64) (s s' : InMemoryStore) : Prop where
  visibleSeq : s'.visibleSeq = s.visibleSeq
  ordered : ∀ table, OrderedRows (rowsOf s table)
  ordered' : ∀ table, OrderedRows (rowsOf s' table)
  staged : ∀ table r, ∀ v ∈ chainAt (rowsOf s table) r, v.txnId = txn → v.commitSeq = 0
  chains : ∀ table r,
    chainAt (rowsOf s' table) r = (chainAt (rowsOf s table) r).filter (isForeign txn)

section

variable {txn u : UInt64} {s s' : InMemoryStore} {table : Bytes} {key : Value} {v : Version}

theorem Without.new (txn : UInt64) : Without txn InMemory.new InMemory.new := by
  have hordered : OrderedRows [] := ⟨fun e he => (List.not_mem_nil he).elim, List.Pairwise.nil⟩
  exact ⟨rfl, fun _ => hordered, fun _ => hordered, fun _ _ v hv => (List.not_mem_nil hv).elim,
    fun _ _ => rfl⟩

/-! ## What others see -/

/-- The staged versions of a transaction do not count for another reader. -/
theorem visibleRow_foreign {seq : UInt64} {chain : List Version} (hne : u ≠ txn)
    (hstaged : ∀ v ∈ chain, v.txnId = txn → v.commitSeq = 0) :
    visibleRow seq u (chain.filter (isForeign txn)) = visibleRow seq u chain := by
  have hsame : (chain.filter (isForeign txn)).filter (isVisible seq u) =
      chain.filter (isVisible seq u) := by
    rw [List.filter_filter]
    apply List.filter_congr
    intro v hv
    by_cases hown : v.txnId = txn
    · have hinvisible : isVisible seq u v = false := by
        rw [isVisible, if_pos (hstaged v hv hown)]
        exact decide_eq_false fun h => hne (h.symm.trans hown)
      rw [hinvisible, Bool.false_and]
    · have hforeign : isForeign txn v = true := by simpa [isForeign] using hown
      rw [hforeign, Bool.and_true]
  have hfind : ∀ l : List Version,
      l.reverse.find? (isVisible seq u) = (l.filter (isVisible seq u)).getLast? := by
    intro l
    rw [← List.head?_reverse, ← List.filter_reverse, List.head?_filter]
  rw [visibleRow, hfind, hsame, ← hfind, visibleRow]

theorem Without.visibleRow (h : Without txn s s') (hne : u ≠ txn) (table : Bytes) (r : Rank) :
    visibleRow s'.visibleSeq u (chainAt (rowsOf s' table) r) =
      InMemory.visibleRow s.visibleSeq u (chainAt (rowsOf s table) r) := by
  rw [h.visibleSeq, h.chains]
  exact visibleRow_foreign hne (h.staged table r)

theorem Without.get (h : Without txn s s') (hne : u ≠ txn) (hkey : key.isNaN = false) :
    get u table key s = InMemory.get u table key s' := by
  rw [get_eq (h.ordered table) hkey, get_eq (h.ordered' table) hkey, h.visibleRow hne]

theorem Without.scan (h : Without txn s s') (hne : u ≠ txn) :
    scan u table s = InMemory.scan u table s' :=
  scan_congr (h.ordered table) (h.ordered' table) fun r => (h.visibleRow hne table r).symm

/-! ## Steps of the transaction -/

theorem Without.pushOwn (h : Without txn s s') (hkey : key.isNaN = false) (hown : v.txnId = txn)
    (hzero : v.commitSeq = 0) : Without txn (pushRow table key v s) s' := by
  have hnot : isForeign txn v = false := by simp [isForeign, hown]
  refine ⟨h.visibleSeq, fun t => ?_, h.ordered', fun t r w hw => ?_, fun t r => ?_⟩
  · rw [rowsOf_pushRow]
    split_ifs
    · exact (h.ordered table).push hkey
    · exact h.ordered t
  · rw [rowsOf_pushRow] at hw
    split_ifs at hw
    · rw [chainAt_push (h.ordered table) hkey] at hw
      split_ifs at hw
      · rcases List.mem_append.1 hw with hw | hw
        · exact h.staged table r w hw
        · rw [List.mem_singleton.1 hw]
          exact fun _ => hzero
      · exact h.staged table r w hw
    · exact h.staged t r w hw
  · rw [rowsOf_pushRow]
    split_ifs with ht
    · rw [ht, chainAt_push (h.ordered table) hkey, h.chains]
      split_ifs
      · simp [List.filter_append, hnot]
      · rfl
    · exact h.chains t r

theorem Without.abortOwn (h : Without txn s s') : Without txn (abort txn s) s' := by
  have hrows : ∀ t r, chainAt (rowsOf (abort txn s) t) r =
      (chainAt (rowsOf s t) r).filter fun v => !isStagedBy txn v := by
    intro t r
    rw [rowsOf_abort, chainAt_unstageRows (h.ordered t)]
  refine ⟨h.visibleSeq, fun t => ?_, h.ordered', fun t r w hw => ?_, fun t r => ?_⟩
  · rw [rowsOf_abort]
    exact (h.ordered t).unstage txn
  · rw [hrows] at hw
    exact h.staged t r w (List.mem_filter.1 hw).1
  · rw [hrows, h.chains, List.filter_filter]
    apply List.filter_congr
    intro w _
    by_cases hw : w.txnId = txn
    · simp [isForeign, hw]
    · simp [isForeign, isStagedBy, hw]

/-! ## Steps of the others -/

theorem Without.push (h : Without txn s s') (hkey : key.isNaN = false) (hne : v.txnId ≠ txn) :
    Without txn (pushRow table key v s) (pushRow table key v s') := by
  have hforeign : isForeign txn v = true := by simpa [isForeign] using hne
  have hordered : ∀ {x : InMemoryStore}, (∀ t, OrderedRows (rowsOf x t)) →
      ∀ t, OrderedRows (rowsOf (pushRow table key v x) t) := by
    intro x hx t
    rw [rowsOf_pushRow]
    split_ifs
    · exact (hx table).push hkey
    · exact hx t
  refine ⟨h.visibleSeq, hordered h.ordered, hordered h.ordered', fun t r w hw => ?_, fun t r => ?_⟩
  · rw [rowsOf_pushRow] at hw
    split_ifs at hw
    · rw [chainAt_push (h.ordered table) hkey] at hw
      split_ifs at hw
      · rcases List.mem_append.1 hw with hw | hw
        · exact h.staged table r w hw
        · rw [List.mem_singleton.1 hw]
          exact fun hown => absurd hown hne
      · exact h.staged table r w hw
    · exact h.staged t r w hw
  · rw [rowsOf_pushRow, rowsOf_pushRow]
    split_ifs
    · rw [chainAt_push (h.ordered table) hkey, chainAt_push (h.ordered' table) hkey, h.chains]
      split_ifs
      · simp [List.filter_append, hforeign]
      · rfl
    · exact h.chains t r

theorem txnId_stamp (u seq : UInt64) (v : Version) : (stamp u seq v).txnId = v.txnId := by
  rw [stamp]
  split_ifs <;> rfl

theorem Without.commit (h : Without txn s s') (hne : u ≠ txn) (seq : UInt64) :
    Without txn (commit u seq s) (InMemory.commit u seq s') := by
  have hrows : ∀ (x : InMemoryStore) t r, chainAt (rowsOf (InMemory.commit u seq x) t) r =
      (chainAt (rowsOf x t) r).map (stamp u seq) := by
    intro x t r
    rw [rowsOf_commit, chainAt_stampRows]
  refine ⟨?_, fun t => ?_, fun t => ?_, fun t r w hw => ?_, fun t r => ?_⟩
  · simp only [InMemory.commit, h.visibleSeq]
  · rw [rowsOf_commit]
    exact (h.ordered t).stamp u seq
  · rw [rowsOf_commit]
    exact (h.ordered' t).stamp u seq
  · rw [hrows] at hw
    obtain ⟨v, hv, rfl⟩ := List.mem_map.1 hw
    intro hown
    rw [txnId_stamp] at hown
    -- a version of the aborting transaction is not the one that commits
    have hnot : isStagedBy u v = false := by
      simpa [isStagedBy, hown] using fun heq : txn = u => absurd heq.symm hne
    rw [stamp, hnot]
    exact h.staged t r v hv hown
  · rw [hrows, hrows, h.chains, List.filter_map]
    congr 1
    apply List.filter_congr
    intro v _
    rw [Function.comp_apply, isForeign, isForeign, txnId_stamp]

theorem Without.abort (h : Without txn s s') (u : UInt64) :
    Without txn (abort u s) (InMemory.abort u s') := by
  have hrows : ∀ {x : InMemoryStore}, (∀ t, OrderedRows (rowsOf x t)) → ∀ t r,
      chainAt (rowsOf (InMemory.abort u x) t) r =
        (chainAt (rowsOf x t) r).filter fun v => !isStagedBy u v := by
    intro x hx t r
    rw [rowsOf_abort, chainAt_unstageRows (hx t)]
  refine ⟨h.visibleSeq, fun t => ?_, fun t => ?_, fun t r w hw => ?_, fun t r => ?_⟩
  · rw [rowsOf_abort]
    exact (h.ordered t).unstage u
  · rw [rowsOf_abort]
    exact (h.ordered' t).unstage u
  · rw [hrows h.ordered] at hw
    exact h.staged t r w (List.mem_filter.1 hw).1
  · rw [hrows h.ordered, hrows h.ordered', h.chains, List.filter_filter, List.filter_filter]
    exact List.filter_congr fun v _ => Bool.and_comm _ _

end

/-! ## Histories -/

/-- A call of the transaction that is not a commit changes nothing for the others. -/
theorem Without.exec_own {txn : UInt64} {e e' : InMemoryEngine} {c : EngineCall}
    (h : Without txn e.store e'.store) (hseq : e'.internalSeq = e.internalSeq)
    (hkey : c.HasExplicitKey) (hown : c.txn = txn) (hcommit : c.isCommit = false) :
    Without txn (e.exec c).2.store e'.store ∧ e'.internalSeq = (e.exec c).2.internalSeq := by
  refine ⟨?_, ?_⟩
  · cases c with
    | get t table key => exact h
    | scan t table => exact h
    | put t table key row =>
      obtain ⟨hnull, hnan⟩ := hkey key rfl
      rw [InMemoryEngine.exec, put_explicit hnull]
      exact h.pushOwn hnan hown rfl
    | remove t table key => exact h.pushOwn (hkey key rfl).2 hown rfl
    | commit t seq => cases hcommit
    | commitNext t => cases hcommit
    | abort t =>
      cases hown
      exact h.abortOwn
  · cases c with
    | commitNext t => cases hcommit
    | _ => exact hseq

/-- A call of another transaction gets the same reply in both runs. -/
theorem Without.exec_other {txn : UInt64} {e e' : InMemoryEngine} {c : EngineCall}
    (h : Without txn e.store e'.store) (hseq : e'.internalSeq = e.internalSeq)
    (hkey : c.HasExplicitKey) (hother : c.txn ≠ txn) :
    (e.exec c).1 = (e'.exec c).1 ∧ Without txn (e.exec c).2.store (e'.exec c).2.store ∧
      (e'.exec c).2.internalSeq = (e.exec c).2.internalSeq := by
  cases c with
  | get t table key => exact ⟨congrArg EngineReply.row (h.get hother (hkey key rfl).2), h, hseq⟩
  | scan t table => exact ⟨congrArg EngineReply.rows (h.scan hother), h, hseq⟩
  | put t table key row =>
    obtain ⟨hnull, hnan⟩ := hkey key rfl
    simp only [InMemoryEngine.exec, put_explicit hnull]
    exact ⟨trivial, h.push hnan hother, hseq⟩
  | remove t table key => exact ⟨rfl, h.push (hkey key rfl).2 hother, hseq⟩
  | commit t seq => exact ⟨rfl, h.commit hother seq, hseq⟩
  | commitNext t =>
    simp only [InMemoryEngine.exec, hseq]
    exact ⟨trivial, h.commit hother _, trivial⟩
  | abort t => exact ⟨rfl, h.abort t, hseq⟩

theorem Without.replies {txn : UInt64} {calls : List EngineCall} {e e' : InMemoryEngine}
    (h : Without txn e.store e'.store) (hseq : e'.internalSeq = e.internalSeq)
    (hkeys : ∀ c ∈ calls, c.HasExplicitKey)
    (hcommit : ∀ c ∈ calls, c.txn = txn → c.isCommit = false) :
    ((e.replies calls).filter fun p => p.1.txn != txn) =
      e'.replies (calls.filter fun c => c.txn != txn) := by
  induction calls generalizing e e' with
  | nil => rfl
  | cons c calls ih =>
    have hrest := fun x hx => hkeys x (List.mem_cons_of_mem c hx)
    have hrest' := fun x hx => hcommit x (List.mem_cons_of_mem c hx)
    rw [InMemoryEngine.replies]
    by_cases hown : c.txn = txn
    · obtain ⟨hstep, hseq'⟩ := h.exec_own hseq (hkeys c List.mem_cons_self) hown
        (hcommit c List.mem_cons_self hown)
      rw [List.filter_cons_of_neg (by simp [hown]), List.filter_cons_of_neg (by simp [hown])]
      exact ih hstep hseq' hrest hrest'
    · obtain ⟨hreply, hstep, hseq'⟩ := h.exec_other hseq (hkeys c List.mem_cons_self) hown
      rw [List.filter_cons_of_pos (by simpa using hown), List.filter_cons_of_pos (by simpa using hown),
        InMemoryEngine.replies, hreply, ih hstep hseq' hrest hrest']

/-- A transaction that never commits leaves no trace in what the others get: in every history, every
call of another transaction has the reply it has in the history without the calls of that
transaction. -/
theorem abort_noninterference {txn : UInt64} {calls : List EngineCall}
    (hkeys : ∀ c ∈ calls, c.HasExplicitKey)
    (hcommit : ∀ c ∈ calls, c.txn = txn → c.isCommit = false) :
    ((InMemoryEngine.new.replies calls).filter fun p => p.1.txn != txn) =
      InMemoryEngine.new.replies (calls.filter fun c => c.txn != txn) :=
  (Without.new txn).replies rfl hkeys hcommit

/-- Transaction 2 opens the chain of a key that transaction 1 writes as well, and removes it again. -/
def overlapping : List EngineCall :=
  [.put 2 (ascii "t") (.int32 1) .empty, .put 1 (ascii "t") (.int64 1) .empty,
    .remove 2 (ascii "t") (.int64 1), .get 1 (ascii "t") (.int32 1), .commit 1 1,
    .scan 3 (ascii "t"), .abort 2, .scan 3 (ascii "t")]

theorem overlapping_noninterference :
    (∀ c ∈ overlapping, c.HasExplicitKey) ∧
      (∀ c ∈ overlapping, c.txn = 2 → c.isCommit = false) ∧
      ((InMemoryEngine.new.replies overlapping).filter fun p => p.1.txn != 2) =
        InMemoryEngine.new.replies (overlapping.filter fun c => c.txn != 2) := by
  have hkeys : ∀ c ∈ overlapping, c.HasExplicitKey := by
    intro c hc key hkey
    simp only [overlapping, List.mem_cons, List.not_mem_nil, or_false] at hc
    rcases hc with rfl | rfl | rfl | rfl | rfl | rfl | rfl | rfl <;> cases hkey <;> exact ⟨rfl, rfl⟩
  have hcommit : ∀ c ∈ overlapping, c.txn = 2 → c.isCommit = false := by decide
  exact ⟨hkeys, hcommit, abort_noninterference hkeys hcommit⟩

end InMemory

end OpenDB
