import OpenDB.Library.MvccMap
import OpenDB.Storage.InMemoryStorageEngine

/-!
# The in-memory engine as a multi-version map

Each table of the engine is a multi-version map over the positions of keys (`mapOf`): the committed
value of a key is the last committed version of its chain, and the staged write of a transaction is
the last version it has staged there. Point reads and scans are reads of that map as long as in every
chain the committed versions stand before the staged ones. A commit keeps this when no other
transaction has staged versions in the table; the other operations always do.
-/

set_option autoImplicit false

namespace OpenDB

open OpenDB.Library

namespace InMemory

/-! ## Chains -/

/-- The row of a version, or nothing for a tombstone. -/
def content (v : Version) : Option Tuple := if v.tombstone then none else some v.payload

def isCommitted (v : Version) : Bool := v.commitSeq != 0

def latestCommitted (chain : List Version) : Option Tuple :=
  (chain.filter isCommitted).getLast?.bind content

def latestStaged (txn : UInt64) (chain : List Version) : Option (Option Tuple) :=
  (chain.filter (isStagedBy txn)).getLast?.map content

/-- Committed versions are within the visible sequence numbers and stand before the staged ones. -/
structure Settled (visibleSeq : UInt64) (chain : List Version) : Prop where
  visible : ∀ v ∈ chain, v.commitSeq ≤ visibleSeq
  blocks : chain.Pairwise fun a b => a.commitSeq = 0 → b.commitSeq = 0

section

variable {seq txn : UInt64} {chain : List Version} {v : Version}

theorem isStagedBy_iff : isStagedBy txn v = true ↔ v.txnId = txn ∧ v.commitSeq = 0 := by
  simp [isStagedBy]

/-- The versions that are committed or staged by the transaction, committed ones first. -/
theorem filter_committed_or_staged (h : chain.Pairwise fun a b => a.commitSeq = 0 → b.commitSeq = 0)
    (txn : UInt64) : (chain.filter fun v => isCommitted v || isStagedBy txn v) =
      chain.filter isCommitted ++ chain.filter (isStagedBy txn) := by
  induction chain with
  | nil => rfl
  | cons v chain ih =>
    rw [List.pairwise_cons] at h
    by_cases hzero : v.commitSeq = 0
    · -- behind a staged version everything is staged
      have hrest : ∀ w ∈ v :: chain, isCommitted w = false := by
        intro w hw
        rcases List.mem_cons.1 hw with rfl | hw
        · simp [isCommitted, hzero]
        · simp [isCommitted, h.1 w hw hzero]
      have hnone : (v :: chain).filter isCommitted = [] := by
        rw [List.filter_eq_nil_iff]
        intro w hw
        rw [hrest w hw]
        exact Bool.false_ne_true
      rw [hnone, List.nil_append]
      apply List.filter_congr
      intro w hw
      rw [hrest w hw, Bool.false_or]
    · have hcommitted : isCommitted v = true := by simpa [isCommitted] using hzero
      have hnot : isStagedBy txn v = false := by simp [isStagedBy, hzero]
      simp [hcommitted, hnot, ih h.2]

theorem isVisible_eq (h : v.commitSeq ≤ seq) :
    isVisible seq txn v = (isCommitted v || isStagedBy txn v) := by
  by_cases hzero : v.commitSeq = 0
  · simp only [isVisible, isCommitted, isStagedBy, hzero, if_true, bne_self_eq_false, beq_self_eq_true,
      Bool.false_or, Bool.and_true]
    rfl
  · simp [isVisible, isCommitted, hzero, h]

/-- A reader sees what it has staged last, and else what was committed last. -/
theorem visibleRow_of_settled (h : Settled seq chain) (txn : UInt64) :
    visibleRow seq txn chain = (latestStaged txn chain).getD (latestCommitted chain) := by
  have hvisible : chain.filter (isVisible seq txn) =
      chain.filter isCommitted ++ chain.filter (isStagedBy txn) := by
    rw [← filter_committed_or_staged h.blocks txn]
    apply List.filter_congr
    intro v hv
    exact isVisible_eq (h.visible v hv)
  have hfind : chain.reverse.find? (isVisible seq txn) =
      (chain.filter isCommitted ++ chain.filter (isStagedBy txn)).getLast? := by
    rw [← hvisible, ← List.head?_reverse, ← List.filter_reverse, List.head?_filter]
  rw [visibleRow, hfind, List.getLast?_append, latestStaged, latestCommitted]
  cases (chain.filter (isStagedBy txn)).getLast? with
  | some w => rfl
  | none => cases (chain.filter isCommitted).getLast? <;> rfl

/-! ### A write -/

theorem latestCommitted_push (hzero : v.commitSeq = 0) :
    latestCommitted (chain ++ [v]) = latestCommitted chain := by
  have hnot : isCommitted v = false := by simp [isCommitted, hzero]
  simp [latestCommitted, List.filter_append, hnot]

theorem latestStaged_push (hzero : v.commitSeq = 0) (txn : UInt64) :
    latestStaged txn (chain ++ [v]) =
      if txn = v.txnId then some (content v) else latestStaged txn chain := by
  split_ifs with ht
  · have hstaged : isStagedBy txn v = true := isStagedBy_iff.2 ⟨ht.symm, hzero⟩
    simp [latestStaged, List.filter_append, hstaged]
  · have hnot : isStagedBy txn v = false := by
      simpa [isStagedBy, hzero] using fun h : v.txnId = txn => ht h.symm
    simp [latestStaged, List.filter_append, hnot]

theorem Settled.push (h : Settled seq chain) (hzero : v.commitSeq = 0) :
    Settled seq (chain ++ [v]) := by
  constructor
  · intro w hw
    rcases List.mem_append.1 hw with hw | hw
    · exact h.visible w hw
    · rw [List.mem_singleton.1 hw, hzero]
      exact UInt64.zero_le
  · refine List.pairwise_append.2 ⟨h.blocks, List.pairwise_singleton _ _, ?_⟩
    intro a _ b hb _
    rw [List.mem_singleton.1 hb]
    exact hzero

/-! ### A commit -/

theorem content_stamp (txn seq : UInt64) (v : Version) : content (stamp txn seq v) = content v := by
  rw [stamp]
  split_ifs <;> rfl

theorem isCommitted_stamp (hseq : seq ≠ 0) (v : Version) :
    isCommitted (stamp txn seq v) = (isCommitted v || isStagedBy txn v) := by
  rcases commitSeq_stamp txn v seq with ⟨hstaged, hcommit⟩ | ⟨hnot, hsame⟩
  · simp [isCommitted, hcommit, hstaged, hseq]
  · rw [hsame, hnot, Bool.or_false]

theorem isStagedBy_stamp (hseq : seq ≠ 0) (u : UInt64) (v : Version) :
    isStagedBy u (stamp txn seq v) = (isStagedBy u v && !isStagedBy txn v) := by
  rcases commitSeq_stamp txn v seq with ⟨hstaged, hcommit⟩ | ⟨hnot, hsame⟩
  · rw [hstaged]
    simp [isStagedBy, hcommit, hseq]
  · rw [hsame, hnot]
    simp

/-- After a commit everybody reads what its transaction read before. -/
theorem latestCommitted_stamp (hseq : seq ≠ 0)
    (h : chain.Pairwise fun a b => a.commitSeq = 0 → b.commitSeq = 0) :
    latestCommitted (chain.map (stamp txn seq)) =
      (latestStaged txn chain).getD (latestCommitted chain) := by
  have hfilter : (chain.map (stamp txn seq)).filter isCommitted =
      (chain.filter isCommitted ++ chain.filter (isStagedBy txn)).map (stamp txn seq) := by
    rw [List.filter_map, ← filter_committed_or_staged h txn]
    congr 1
    apply List.filter_congr
    intro v _
    exact isCommitted_stamp hseq v
  have hbind : ∀ o : Option Version, (o.map (stamp txn seq)).bind content = o.bind content := by
    intro o
    cases o with
    | none => rfl
    | some v => exact content_stamp txn seq v
  rw [latestCommitted, hfilter, List.getLast?_map, hbind, List.getLast?_append, latestStaged,
    latestCommitted]
  cases (chain.filter (isStagedBy txn)).getLast? <;> rfl

theorem latestStaged_stamp (hseq : seq ≠ 0) (u : UInt64) (chain : List Version) :
    latestStaged u (chain.map (stamp txn seq)) =
      if u = txn then none else latestStaged u chain := by
  have hmap : ∀ o : Option Version, (o.map (stamp txn seq)).map content = o.map content := by
    intro o
    rw [Option.map_map]
    exact congrArg (Option.map · o) (funext (content_stamp txn seq))
  rw [latestStaged, List.filter_map, List.getLast?_map, hmap]
  split_ifs with hu
  · have hnone : chain.filter (isStagedBy u ∘ stamp txn seq) = [] := by
      rw [List.filter_eq_nil_iff]
      intro v _
      rw [Function.comp_apply, isStagedBy_stamp hseq, hu]
      simp
    rw [hnone]
    rfl
  · rw [latestStaged]
    have hsame : chain.filter (isStagedBy u ∘ stamp txn seq) = chain.filter (isStagedBy u) := by
      apply List.filter_congr
      intro v _
      rw [Function.comp_apply, isStagedBy_stamp hseq]
      cases hv : isStagedBy u v with
      | false => rfl
      | true =>
        have hnot : isStagedBy txn v = false := by
          simpa [isStagedBy, (isStagedBy_iff.1 hv).2, (isStagedBy_iff.1 hv).1] using hu
        rw [hnot]
        rfl
    rw [hsame]

/-- The committed versions stay in front when the staged ones have one writer. -/
theorem Settled.stamp (h : Settled seq chain) {seq' : UInt64} (hseq : seq' ≠ 0)
    (hsingle : ∀ v ∈ chain, ∀ w ∈ chain, v.commitSeq = 0 → w.commitSeq = 0 → v.txnId = w.txnId) :
    Settled (max seq seq') (chain.map (InMemory.stamp txn seq')) := by
  constructor
  · intro w hw
    obtain ⟨v, hv, rfl⟩ := List.mem_map.1 hw
    rcases commitSeq_stamp txn v seq' with ⟨-, hcommit⟩ | ⟨-, hsame⟩
    · rw [hcommit]
      exact (le_max_seq seq seq').2
    · rw [hsame]
      exact UInt64.le_trans (h.visible v hv) (le_max_seq seq seq').1
  · rw [List.pairwise_map]
    refine h.blocks.imp_of_mem ?_
    intro a b ha hb hab hzero
    rcases commitSeq_stamp txn a seq' with ⟨-, hcommit⟩ | ⟨hnot, hsame⟩
    · exact absurd (hcommit.symm.trans hzero) hseq
    · -- `a` is staged by the one writer of the chain, which is not the committing transaction
      rw [hsame] at hzero
      have hbzero := hab hzero
      have hstay : isStagedBy txn b = false := by
        rw [← hnot, isStagedBy, isStagedBy, hsingle b hb a ha hbzero hzero, hbzero, hzero]
      rw [InMemory.stamp, hstay]
      exact hbzero

/-! ### An abort -/

theorem latestCommitted_unstage (txn : UInt64) (chain : List Version) :
    latestCommitted (chain.filter fun v => !isStagedBy txn v) = latestCommitted chain := by
  have hfilter : (chain.filter fun v => !isStagedBy txn v).filter isCommitted =
      chain.filter isCommitted := by
    rw [List.filter_filter]
    apply List.filter_congr
    intro v _
    by_cases hzero : v.commitSeq = 0
    · simp [isCommitted, hzero]
    · simp [isCommitted, isStagedBy, hzero]
  rw [latestCommitted, hfilter, latestCommitted]

theorem latestStaged_unstage (txn u : UInt64) (chain : List Version) :
    latestStaged u (chain.filter fun v => !isStagedBy txn v) =
      if u = txn then none else latestStaged u chain := by
  rw [latestStaged, List.filter_filter]
  split_ifs with hu
  · have hnone : (chain.filter fun v => isStagedBy u v && !isStagedBy txn v) = [] := by
      simp [hu]
    rw [hnone]
    rfl
  · rw [latestStaged]
    have hsame : (chain.filter fun v => isStagedBy u v && !isStagedBy txn v) =
        chain.filter (isStagedBy u) := by
      apply List.filter_congr
      intro v _
      cases hv : isStagedBy u v with
      | false => rfl
      | true =>
        have hnot : isStagedBy txn v = false := by
          simpa [isStagedBy, (isStagedBy_iff.1 hv).2, (isStagedBy_iff.1 hv).1] using hu
        rw [hnot]
        rfl
    rw [hsame]

theorem Settled.unstage (h : Settled seq chain) (txn : UInt64) :
    Settled seq (chain.filter fun v => !isStagedBy txn v) :=
  ⟨fun v hv => h.visible v (List.mem_filter.1 hv).1, h.blocks.filter _⟩

end

/-! ## The engine and the reference map -/

/-- A table as a multi-version map over the positions of its keys. -/
def mapOf (rows : Rows) : MvccMap UInt64 Rank Tuple :=
  ⟨fun r => latestCommitted (chainAt rows r), fun txn r => latestStaged txn (chainAt rows r)⟩

/-- One multi-version map for each table. -/
abbrev Reference := Bytes → MvccMap UInt64 Rank Tuple

/-- What a call does to the reference. -/
def Reference.exec (m : Reference) : EngineCall → Reference
  | .put txn table key row => setTable m table ((m table).write txn key.rank (some row))
  | .remove txn table key => setTable m table ((m table).write txn key.rank none)
  | .commit txn _ | .commitNext txn => fun table => (m table).commit txn
  | .abort txn => fun table => (m table).abort txn
  | .get _ _ _ | .scan _ _ => m

def Reference.after (m : Reference) (calls : List EngineCall) : Reference := calls.foldl .exec m

/-- The sequence numbers of the commits of a history; `n` is the engine's counter before it. -/
def sequences (n : UInt64) : List EngineCall → List UInt64
  | [] => []
  | .commit _ visibleSeq :: calls => visibleSeq :: sequences n calls
  | .commitNext _ :: calls => (n + 1) :: sequences (n + 1) calls
  | _ :: calls => sequences n calls

/-- The transaction has staged versions in the table. -/
def StagedIn (s : InMemoryStore) (table : Bytes) (txn : UInt64) : Prop :=
  ∃ e ∈ rowsOf s table, ∃ v ∈ e.2, isStagedBy txn v = true

/-- At most one transaction has staged versions in a table. -/
def SingleWriter (s : InMemoryStore) : Prop :=
  ∀ table txn txn', StagedIn s table txn → StagedIn s table txn' → txn = txn'

/-- The histories of the contract: explicit keys, one writer per table at a time, and commits whose
sequence numbers increase from the initial zero. -/
structure Disciplined (e : InMemoryEngine) (calls : List EngineCall) : Prop where
  keys : ∀ c ∈ calls, c.HasExplicitKey
  single : ∀ before, before <+: calls → SingleWriter (e.after before).store
  increasing : (e.store.visibleSeq :: sequences e.internalSeq calls).Pairwise (· < ·)

/-- Every table is ordered and every chain settled. -/
structure SettledStore (s : InMemoryStore) : Prop where
  ordered : ∀ table, OrderedRows (rowsOf s table)
  settled : ∀ table r, Settled s.visibleSeq (chainAt (rowsOf s table) r)

def referenceOf (s : InMemoryStore) : Reference := fun table => mapOf (rowsOf s table)

section

variable {s : InMemoryStore} {table : Bytes} {txn : UInt64} {key : Value} {v : Version}

theorem SettledStore.new : SettledStore InMemory.new := by
  have hrows : ∀ table, rowsOf InMemory.new table = [] := fun _ => rfl
  constructor
  · intro table
    rw [hrows]
    exact ⟨fun e he => (List.not_mem_nil he).elim, List.Pairwise.nil⟩
  · intro table r
    rw [hrows]
    exact ⟨fun v hv => (List.not_mem_nil hv).elim, List.Pairwise.nil⟩

theorem SettledStore.pushRow (h : SettledStore s) (hkey : key.isNaN = false)
    (hzero : v.commitSeq = 0) : SettledStore (InMemory.pushRow table key v s) := by
  constructor
  · intro t
    rw [rowsOf_pushRow]
    split_ifs
    · exact (h.ordered table).push hkey
    · exact h.ordered t
  · intro t r
    rw [rowsOf_pushRow]
    split_ifs
    · rw [chainAt_push (h.ordered table) hkey]
      split_ifs
      · exact (h.settled table r).push hzero
      · exact h.settled table r
    · exact h.settled t r

theorem referenceOf_pushRow (h : SettledStore s) (hkey : key.isNaN = false)
    (hzero : v.commitSeq = 0) :
    referenceOf (pushRow table key v s) = setTable (referenceOf s) table
      ((referenceOf s table).write v.txnId key.rank (content v)) := by
  funext t
  by_cases ht : t = table
  · rw [ht, setTable_self, referenceOf, rowsOf_pushRow, if_pos rfl]
    simp only [mapOf, MvccMap.write, chainAt_push (h.ordered table) hkey, referenceOf,
      MvccMap.mk.injEq]
    constructor
    · funext r
      split_ifs
      · exact latestCommitted_push hzero
      · rfl
    · funext u r
      by_cases hr : r = key.rank
      · rw [if_pos hr, latestStaged_push hzero]
        simp only [hr, and_true]
      · rw [if_neg hr, if_neg fun h => hr h.2]
  · rw [setTable_of_ne _ _ ht, referenceOf, rowsOf_pushRow, if_neg ht]
    rfl

/-- The staged versions of a chain have one writer. -/
theorem SingleWriter.chain (h : SingleWriter s) (table : Bytes) (r : Rank) :
    ∀ v ∈ chainAt (rowsOf s table) r, ∀ w ∈ chainAt (rowsOf s table) r,
      v.commitSeq = 0 → w.commitSeq = 0 → v.txnId = w.txnId := by
  intro v hv w hw hvzero hwzero
  obtain ⟨e, he, -, hchain⟩ := exists_mem_of_mem_chainAt hv
  rw [hchain] at hv hw
  exact h table v.txnId w.txnId ⟨e, he, v, hv, isStagedBy_iff.2 ⟨rfl, hvzero⟩⟩
    ⟨e, he, w, hw, isStagedBy_iff.2 ⟨rfl, hwzero⟩⟩

theorem SettledStore.commit (h : SettledStore s) (hsingle : SingleWriter s) {seq : UInt64}
    (hseq : seq ≠ 0) : SettledStore (InMemory.commit txn seq s) := by
  constructor
  · intro table
    rw [rowsOf_commit]
    exact (h.ordered table).stamp txn seq
  · intro table r
    rw [rowsOf_commit, chainAt_stampRows]
    exact (h.settled table r).stamp hseq (hsingle.chain table r)

theorem referenceOf_commit (h : SettledStore s) {seq : UInt64} (hseq : seq ≠ 0) :
    referenceOf (commit txn seq s) = fun table => (referenceOf s table).commit txn := by
  funext table
  simp only [referenceOf, rowsOf_commit, mapOf, chainAt_stampRows, MvccMap.commit, MvccMap.mk.injEq]
  constructor
  · funext r
    exact latestCommitted_stamp hseq (h.settled table r).blocks
  · funext u
    split_ifs with hu
    · funext r
      rw [latestStaged_stamp hseq, if_pos hu]
    · funext r
      rw [latestStaged_stamp hseq, if_neg hu]

theorem SettledStore.abort (h : SettledStore s) : SettledStore (InMemory.abort txn s) := by
  constructor
  · intro table
    rw [rowsOf_abort]
    exact (h.ordered table).unstage txn
  · intro table r
    rw [rowsOf_abort, chainAt_unstageRows (h.ordered table)]
    exact (h.settled table r).unstage txn

theorem referenceOf_abort (h : SettledStore s) :
    referenceOf (abort txn s) = fun table => (referenceOf s table).abort txn := by
  funext table
  simp only [referenceOf, rowsOf_abort, mapOf, chainAt_unstageRows (h.ordered table), MvccMap.abort,
    MvccMap.mk.injEq]
  constructor
  · funext r
    exact latestCommitted_unstage txn _
  · funext u
    split_ifs with hu
    · funext r
      rw [latestStaged_unstage, if_pos hu]
    · funext r
      rw [latestStaged_unstage, if_neg hu]

end

/-- One call: the store stays settled and the reference makes the same step. -/
theorem exec_settled {e : InMemoryEngine} {c : EngineCall} (h : SettledStore e.store)
    (hsingle : SingleWriter e.store) (hkey : c.HasExplicitKey)
    (hseq : ∀ seq ∈ sequences e.internalSeq [c], seq ≠ 0) :
    SettledStore (e.exec c).2.store ∧
      referenceOf (e.exec c).2.store = (referenceOf e.store).exec c := by
  cases c with
  | get txn table key => exact ⟨h, rfl⟩
  | scan txn table => exact ⟨h, rfl⟩
  | put txn table key row =>
    obtain ⟨hnull, hnan⟩ := hkey key rfl
    simp only [InMemoryEngine.exec, put_explicit hnull]
    exact ⟨h.pushRow hnan rfl, referenceOf_pushRow h hnan rfl⟩
  | remove txn table key =>
    obtain ⟨-, hnan⟩ := hkey key rfl
    exact ⟨h.pushRow hnan rfl, referenceOf_pushRow h hnan rfl⟩
  | commit txn visibleSeq =>
    have hne := hseq visibleSeq List.mem_cons_self
    exact ⟨h.commit hsingle hne, referenceOf_commit h hne⟩
  | commitNext txn =>
    have hne := hseq (e.internalSeq + 1) List.mem_cons_self
    exact ⟨h.commit hsingle hne, referenceOf_commit h hne⟩
  | abort txn => exact ⟨h.abort, referenceOf_abort h⟩

/-! ## Histories -/

theorem visibleSeq_exec (e : InMemoryEngine) (c : EngineCall) :
    (e.exec c).2.store.visibleSeq =
      ((sequences e.internalSeq [c]).head?.map (max e.store.visibleSeq)).getD e.store.visibleSeq := by
  cases c with
  | put txn table key row =>
    simp only [InMemoryEngine.exec, put, sequences]
    split_ifs <;> rfl
  | _ => rfl

/-- The rest of a disciplined history is disciplined. -/
theorem Disciplined.tail {e : InMemoryEngine} {c : EngineCall} {calls : List EngineCall}
    (h : Disciplined e (c :: calls)) : Disciplined (e.exec c).2 calls := by
  refine ⟨fun x hx => h.keys x (List.mem_cons_of_mem _ hx), fun before hbefore => ?_, ?_⟩
  · exact h.single (c :: before) (List.cons_prefix_cons.2 ⟨rfl, hbefore⟩)
  · have hinc := h.increasing
    have hseq := visibleSeq_exec e c
    -- a commit raises the visible sequence number to its own, which is above
    have hraise : ∀ {n : UInt64} {rest : List UInt64},
        (e.store.visibleSeq :: n :: rest).Pairwise (· < ·) →
          (max e.store.visibleSeq n :: rest).Pairwise (· < ·) := by
      intro n rest hp
      rw [List.pairwise_cons] at hp
      have hlt := hp.1 n List.mem_cons_self
      have hmax : max e.store.visibleSeq n = n := if_pos (UInt64.le_of_lt hlt)
      rw [hmax]
      exact hp.2
    cases c with
    | commit txn visibleSeq =>
      rw [hseq]
      exact hraise hinc
    | commitNext txn =>
      rw [hseq]
      exact hraise hinc
    | put txn table key row =>
      rw [hseq]
      exact hinc
    | _ => exact hinc

theorem Disciplined.head {e : InMemoryEngine} {c : EngineCall} {calls : List EngineCall}
    (h : Disciplined e (c :: calls)) :
    SingleWriter e.store ∧ c.HasExplicitKey ∧ ∀ seq ∈ sequences e.internalSeq [c], seq ≠ 0 := by
  refine ⟨h.single [] List.nil_prefix, h.keys c List.mem_cons_self, ?_⟩
  intro seq hseq hzero
  have hlt : e.store.visibleSeq < seq := by
    refine (List.pairwise_cons.1 h.increasing).1 seq ?_
    cases c with
    | commit txn visibleSeq => exact List.mem_singleton.1 hseq ▸ List.mem_cons_self
    | commitNext txn => exact List.mem_singleton.1 hseq ▸ List.mem_cons_self
    | _ => cases hseq
  rw [hzero] at hlt
  exact UInt64.not_lt_zero hlt

theorem Disciplined.of_prefix {e : InMemoryEngine} {before calls : List EngineCall}
    (h : Disciplined e calls) (hbefore : before <+: calls) : Disciplined e before := by
  obtain ⟨rest, rfl⟩ := hbefore
  have hsequences : ∀ (n : UInt64) (before : List EngineCall),
      sequences n before <+: sequences n (before ++ rest) := by
    intro n before
    induction before generalizing n with
    | nil => exact List.nil_prefix
    | cons c before ih =>
      cases c with
      | commit txn visibleSeq => exact List.cons_prefix_cons.2 ⟨rfl, ih n⟩
      | commitNext txn => exact List.cons_prefix_cons.2 ⟨rfl, ih (n + 1)⟩
      | _ => exact ih n
  refine ⟨fun c hc => h.keys c (List.mem_append_left _ hc), fun p hp => ?_, ?_⟩
  · exact h.single p (hp.trans (List.prefix_append _ _))
  · exact h.increasing.sublist ((hsequences e.internalSeq before).sublist.cons_cons _)

/-- A whole history: the engine and the reference go together. -/
theorem after_settled {calls : List EngineCall} {e : InMemoryEngine} (h : SettledStore e.store)
    (hd : Disciplined e calls) : SettledStore (e.after calls).store ∧
      referenceOf (e.after calls).store = (referenceOf e.store).after calls := by
  induction calls generalizing e with
  | nil => exact ⟨h, rfl⟩
  | cons c calls ih =>
    obtain ⟨hsingle, hkey, hseq⟩ := hd.head
    obtain ⟨hstep, href⟩ := exec_settled h hsingle hkey hseq
    obtain ⟨hlast, hrest⟩ := ih hstep hd.tail
    refine ⟨hlast, hrest.trans ?_⟩
    rw [href]
    rfl

/-! ## Reads -/

theorem read_referenceOf {s : InMemoryStore} (h : SettledStore s) (table : Bytes) (txn : UInt64)
    (r : Rank) : (referenceOf s table).read txn r =
      visibleRow s.visibleSeq txn (chainAt (rowsOf s table) r) :=
  (visibleRow_of_settled (h.settled table r) txn).symm

theorem scan_reads {s : InMemoryStore} (h : SettledStore s) (table : Bytes) (txn : UInt64) :
    ∃ keys : List Rank, keys.Pairwise (· < ·) ∧
      (∀ r, r ∈ keys ↔ ((referenceOf s table).read txn r).isSome = true) ∧
      (scan txn table s).map some = keys.map ((referenceOf s table).read txn) := by
  have hread : (referenceOf s table).read txn =
      fun r => visibleRow s.visibleSeq txn (chainAt (rowsOf s table) r) :=
    funext (read_referenceOf h table txn)
  rw [hread]
  exact exists_keys_of_scan (h.ordered table) txn

/-- In every history of the contract, at every point of it, a point read returns what the
transaction reads of the key in the reference, and a scan emits exactly the keys that it can read
there, each once and in ascending order. -/
theorem refines_mvcc_map {calls before : List EngineCall}
    (h : Disciplined InMemoryEngine.new calls) (hbefore : before <+: calls) (txn : UInt64)
    (table : Bytes) :
    let s := (InMemoryEngine.new.after before).store
    let m := Reference.after (fun _ => MvccMap.empty) before table
    (∀ key : Value, key.isNaN = false → get txn table key s = m.read txn key.rank) ∧
      ∃ keys : List Rank, keys.Pairwise (· < ·) ∧ (∀ r, r ∈ keys ↔ (m.read txn r).isSome = true) ∧
        (scan txn table s).map some = keys.map (m.read txn) := by
  intro s m
  obtain ⟨hsettled, href⟩ := after_settled SettledStore.new (h.of_prefix hbefore)
  have hm : m = referenceOf s table := congrFun href.symm table
  rw [hm]
  refine ⟨fun key hkey => ?_, scan_reads hsettled table txn⟩
  rw [read_referenceOf hsettled]
  exact get_eq (hsettled.ordered table) hkey txn

/-- One writer per table, looked up in the entries. -/
theorem singleWriter_of_entries {s : InMemoryStore}
    (h : ∀ rows ∈ s.tables.entries.map Prod.snd, ∀ a ∈ rows, ∀ b ∈ rows, ∀ v ∈ a.2, ∀ w ∈ b.2,
      v.commitSeq = 0 → w.commitSeq = 0 → v.txnId = w.txnId) : SingleWriter s := by
  rintro table txn txn' ⟨a, ha, v, hv, hvs⟩ ⟨b, hb, w, hw, hws⟩
  rw [isStagedBy_iff] at hvs hws
  rw [← hvs.1, ← hws.1]
  cases hfind : s.tables.find table with
  | none =>
    rw [rowsOf, hfind] at ha
    cases ha
  | some rows =>
    rw [rowsOf, hfind, Option.getD_some] at ha hb
    obtain ⟨A, B, hentries, -, -⟩ := AssocMap.exists_of_find hfind
    refine h rows ?_ a ha b hb v hv w hw hvs.2 hws.2
    rw [hentries, List.map_append, List.map_cons]
    exact List.mem_append_right _ List.mem_cons_self

/-- Two transactions in turn: one inserts two rows, the next removes one of them. -/
def turnTaking : List EngineCall :=
  [.put 1 (ascii "t") (.boolean true) .empty, .put 1 (ascii "t") (.boolean false) .empty,
    .commit 1 1, .remove 2 (ascii "t") (.boolean true), .scan 2 (ascii "t")]

theorem turnTaking_refines :
    Disciplined InMemoryEngine.new turnTaking ∧
      get 2 (ascii "t") (.boolean true) (InMemoryEngine.new.after turnTaking).store =
        (Reference.after (fun _ => MvccMap.empty) turnTaking (ascii "t")).read 2
          (Value.boolean true).rank := by
  have h : Disciplined InMemoryEngine.new turnTaking := by
    refine ⟨?_, fun before hbefore => ?_, by decide⟩
    · intro c hc key hkey
      simp only [turnTaking, List.mem_cons, List.not_mem_nil, or_false] at hc
      rcases hc with rfl | rfl | rfl | rfl | rfl <;> cases hkey <;> exact ⟨rfl, rfl⟩
    · apply singleWriter_of_entries
      have hall : ∀ before ∈ turnTaking.inits, ∀ rows ∈
          (InMemoryEngine.new.after before).store.tables.entries.map Prod.snd,
          ∀ a ∈ rows, ∀ b ∈ rows, ∀ v ∈ a.2, ∀ w ∈ b.2,
            v.commitSeq = 0 → w.commitSeq = 0 → v.txnId = w.txnId := by
        decide +kernel
      exact hall before ((List.mem_inits _ _).2 hbefore)
  exact ⟨h, (refines_mvcc_map h (List.prefix_refl _) 2 (ascii "t")).1 (.boolean true) rfl⟩

end InMemory

end OpenDB
