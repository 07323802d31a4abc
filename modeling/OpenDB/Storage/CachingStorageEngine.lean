import OpenDB.Storage.InMemoryStorageEngine
import OpenDB.Types.ValueText

/-!
# The caching engine

`CachingStorageEngine` over an in-memory engine. Point reads of transaction 0 are answered from a
cache of rows; the cache is keyed by a text made of the table and the printed key, and only a write
through the cache erases an entry, the one of the key it was given.

The cache answers like the engine beneath as long as every entry is the row that the engine shows for
every table and key of its text that is read (`Coherent`). `coherent_exec_iff` says which calls break
this: a lookup that files a row under a text which another row has as well, and a call that changes the
row of an entry it does not erase.
-/

set_option autoImplicit false

namespace OpenDB

open OpenDB.Library InMemory

/-- The engine beneath and the cache. -/
structure CachingEngine where
  inner : InMemoryEngine
  cache : AssocMap Bytes (Option Tuple)
  deriving DecidableEq

namespace CachingEngine

def new : CachingEngine := ⟨.new, .empty⟩

/-- `makeKey`. -/
def makeKey (table : Bytes) (key : Value) : Bytes := table ++ (ascii "|->" ++ key.toString)

/-- A call that does not use the cache. -/
def forward (c : CachingEngine) (call : EngineCall) : EngineReply × CachingEngine :=
  ((c.inner.exec call).1, { c with inner := (c.inner.exec call).2 })

/-- A write: the entry of its key goes when the write has succeeded. -/
def writeThrough (c : CachingEngine) (call : EngineCall) (ck : Bytes) : EngineReply × CachingEngine :=
  let reply := (c.inner.exec call).1
  let cache := if reply = .status .sentinel then c.cache.erase ck else c.cache
  (reply, ⟨(c.inner.exec call).2, cache⟩)

/-- `get`: a read of transaction 0 is looked up and filed. -/
def lookup (c : CachingEngine) (txn : UInt64) (table : Bytes) (key : Value) :
    EngineReply × CachingEngine :=
  if txn = 0 then
    match c.cache.find (makeKey table key) with
    | some row => (.row row, c)
    | none =>
      let row := get txn table key c.inner.store
      (.row row, { c with cache := c.cache.assign (makeKey table key) row })
  else c.forward (.get txn table key)

/-- One call. -/
def exec (c : CachingEngine) : EngineCall → EngineReply × CachingEngine
  | .get txn table key => c.lookup txn table key
  | .put txn table key row => c.writeThrough (.put txn table key row) (makeKey table key)
  | .remove txn table key => c.writeThrough (.remove txn table key) (makeKey table key)
  | call => c.forward call

/-- The engine after a history. -/
def after (c : CachingEngine) (calls : List EngineCall) : CachingEngine :=
  calls.foldl (fun c call => (c.exec call).2) c

/-- The replies of a history, call by call. -/
def replies (c : CachingEngine) : List EngineCall → List (EngineCall × EngineReply)
  | [] => []
  | call :: calls => (call, (c.exec call).1) :: (c.exec call).2.replies calls

/-- The text of the entry that a call erases. -/
def erased : EngineCall → Option Bytes
  | .put _ table key _ | .remove _ table key => some (makeKey table key)
  | _ => none

/-! ## Coherence -/

/-- What the engine beneath shows transaction 0. -/
def shown (e : InMemoryEngine) (table : Bytes) (key : Value) : Option Tuple :=
  get 0 table key e.store

/-- Every entry is the row of all tables and keys that have its text and are read. -/
def Coherent (used : Bytes → Value → Prop) (c : CachingEngine) : Prop :=
  ∀ table key, used table key → ∀ row, c.cache.find (makeKey table key) = some row →
    row = shown c.inner table key

/-- The lookup files a row, and a table and key of the same text that are read have a different one. -/
def FilesAmbiguously (used : Bytes → Value → Prop) (c : CachingEngine) (txn : UInt64) (table : Bytes)
    (key : Value) : Prop :=
  txn = 0 ∧ c.cache.find (makeKey table key) = none ∧
    ∃ table' key', used table' key' ∧ makeKey table' key' = makeKey table key ∧
      shown c.inner table' key' ≠ shown c.inner table key

/-- The call changes the row of an entry and does not erase the entry. -/
def ChangesCached (used : Bytes → Value → Prop) (c : CachingEngine) (call : EngineCall) : Prop :=
  ∃ table key, used table key ∧ (c.cache.find (makeKey table key)).isSome ∧
    erased call ≠ some (makeKey table key) ∧
    shown (c.inner.exec call).2 table key ≠ shown c.inner table key

/-- The calls after which an entry is not the row of its tables and keys any more. -/
def MakesStale (used : Bytes → Value → Prop) (c : CachingEngine) : EngineCall → Prop
  | .get txn table key => c.FilesAmbiguously used txn table key
  | call => c.ChangesCached used call

/-- The tables and keys that a history reads for transaction 0, whose reads the cache answers. -/
def ReadIn (calls : List EngineCall) (table : Bytes) (key : Value) : Prop :=
  .get 0 table key ∈ calls

section

variable {c : CachingEngine} {used : Bytes → Value → Prop}

/-- The engine beneath does not notice the cache. -/
theorem inner_exec (c : CachingEngine) (call : EngineCall) :
    (c.exec call).2.inner = (c.inner.exec call).2 := by
  cases call with
  | get txn table key =>
    simp only [exec, lookup]
    split_ifs
    · cases c.cache.find (makeKey table key) <;> rfl
    · rfl
  | _ => rfl

theorem inner_after (c : CachingEngine) (calls : List EngineCall) :
    (c.after calls).inner = c.inner.after calls := by
  induction calls generalizing c with
  | nil => rfl
  | cons call calls ih =>
    rw [after, List.foldl_cons]
    exact (ih (c.exec call).2).trans (by rw [inner_exec]; rfl)

/-- The point reads agree with the engine beneath exactly when the cache is coherent. -/
theorem coherent_iff_get : Coherent used c ↔ ∀ txn table key, used table key →
    (c.exec (.get txn table key)).1 = (c.inner.exec (.get txn table key)).1 := by
  constructor
  · intro h txn table key hused
    simp only [exec, lookup, InMemoryEngine.exec]
    split_ifs with htxn
    · rw [htxn]
      cases hfind : c.cache.find (makeKey table key) with
      | none => rfl
      | some row => exact congrArg EngineReply.row (h table key hused row hfind)
    · rfl
  · intro h table key hused row hfind
    have hget := h 0 table key hused
    simp only [exec, lookup, InMemoryEngine.exec, if_true, hfind] at hget
    exact EngineReply.row.inj hget

/-- A call other than a lookup leaves the cache alone but for the entry it erases. -/
theorem find_exec (c : CachingEngine) {call : EngineCall}
    (hget : ∀ txn table key, call ≠ .get txn table key) (ck : Bytes) :
    (c.exec call).2.cache.find ck = if erased call = some ck then none else c.cache.find ck := by
  have hwrite : ∀ (call : EngineCall) (own : Bytes), (c.inner.exec call).1 = .status .sentinel →
      (c.writeThrough call own).2.cache.find ck =
        if some own = some ck then none else c.cache.find ck := by
    intro call own hreply
    simp only [writeThrough, hreply, if_true]
    split_ifs with hck
    · rw [Option.some.inj hck, AssocMap.find_erase_self]
    · exact AssocMap.find_erase_of_ne _ fun heq => hck (congrArg some heq.symm)
  cases call with
  | get txn table key => exact absurd rfl (hget txn table key)
  | put txn table key row => exact hwrite _ _ rfl
  | remove txn table key => exact hwrite _ _ rfl
  | _ => rfl

theorem coherent_exec_of_changes (h : Coherent used c) {call : EngineCall}
    (hget : ∀ txn table key, call ≠ .get txn table key) :
    Coherent used (c.exec call).2 ↔ ¬ c.ChangesCached used call := by
  constructor
  · rintro hafter ⟨table, key, hused, hsome, herased, hchange⟩
    obtain ⟨row, hfind⟩ := Option.isSome_iff_exists.1 hsome
    have hkept : (c.exec call).2.cache.find (makeKey table key) = some row := by
      rw [find_exec c hget, if_neg herased, hfind]
    have hnew := hafter table key hused row hkept
    rw [inner_exec] at hnew
    exact hchange (hnew.symm.trans (h table key hused row hfind))
  · intro hkeep table key hused row hfind
    rw [find_exec c hget] at hfind
    split_ifs at hfind with herased
    rw [inner_exec, h table key hused row hfind]
    by_contra hchange
    exact hkeep ⟨table, key, hused, by rw [hfind]; rfl, herased, fun heq => hchange heq.symm⟩

/-- A lookup that finds no entry files the row it reads. -/
theorem coherent_lookup (h : Coherent used c) (txn : UInt64) (table : Bytes) (key : Value) :
    Coherent used (c.exec (.get txn table key)).2 ↔ ¬ c.FilesAmbiguously used txn table key := by
  simp only [exec, lookup, FilesAmbiguously]
  split_ifs with htxn
  · cases hfind : c.cache.find (makeKey table key) with
    | some row => simpa using h
    | none =>
      simp only [htxn, true_and]
      constructor
      · rintro hafter ⟨table', key', hused, hsame, hdiff⟩
        refine hdiff (hafter table' key' hused _ ?_).symm
        rw [hsame]
        exact AssocMap.find_assign_self _ _ _
      · intro hone table' key' hused row hrow
        by_cases hsame : makeKey table' key' = makeKey table key
        · -- the entry just filed
          simp only [hsame, AssocMap.find_assign_self, Option.some.injEq] at hrow
          rw [← hrow]
          by_contra hdiff
          exact hone ⟨table', key', hused, hsame, fun heq => hdiff heq.symm⟩
        · refine h table' key' hused row ?_
          rwa [AssocMap.find_assign_of_ne _ _ hsame] at hrow
  · simp only [htxn, false_and, not_false_eq_true, iff_true]
    exact h

/-- Exactly the calls of `MakesStale` end the coherence of the cache. -/
theorem coherent_exec_iff (h : Coherent used c) (call : EngineCall) :
    Coherent used (c.exec call).2 ↔ ¬ c.MakesStale used call := by
  cases call with
  | get txn table key => exact coherent_lookup h txn table key
  | put txn table key row => exact coherent_exec_of_changes h fun _ _ _ heq => by cases heq
  | remove txn table key => exact coherent_exec_of_changes h fun _ _ _ heq => by cases heq
  | scan txn table => exact coherent_exec_of_changes h fun _ _ _ heq => by cases heq
  | commit txn seq => exact coherent_exec_of_changes h fun _ _ _ heq => by cases heq
  | commitNext txn => exact coherent_exec_of_changes h fun _ _ _ heq => by cases heq
  | abort txn => exact coherent_exec_of_changes h fun _ _ _ heq => by cases heq

theorem coherent_new : Coherent used new := by
  intro table key _ row hfind
  cases hfind

/-- A coherent cache answers every call as the engine beneath does. -/
theorem Coherent.reply (h : Coherent used c) {call : EngineCall}
    (hused : ∀ table key, call = .get 0 table key → used table key) :
    (c.exec call).1 = (c.inner.exec call).1 := by
  cases call with
  | get txn table key =>
    by_cases htxn : txn = 0
    · exact coherent_iff_get.1 h txn table key (hused table key (by rw [htxn]))
    · simp only [exec, lookup, if_neg htxn]
      rfl
  | _ => rfl

end

theorem after_concat (c : CachingEngine) (calls : List EngineCall) (call : EngineCall) :
    c.after (calls ++ [call]) = ((c.after calls).exec call).2 := by
  rw [after, List.foldl_append]
  rfl

/-- The calls made so far keep the cache coherent. -/
theorem coherent_after {used : Bytes → Value → Prop} {calls before : List EngineCall}
    (hgood : ∀ before call, before ++ [call] <+: calls → ¬ (new.after before).MakesStale used call)
    (hbefore : before <+: calls) : Coherent used (new.after before) := by
  induction before using List.reverseRecOn with
  | nil => exact coherent_new
  | append_singleton before call ih =>
    have hcoherent := ih ((List.prefix_append before [call]).trans hbefore)
    rw [after_concat]
    exact (coherent_exec_iff hcoherent call).2 (hgood before call hbefore)

/-- From a coherent cache on, the replies are those of the engine beneath as long as it stays
coherent. -/
theorem replies_eq {used : Bytes → Value → Prop} {calls : List EngineCall} (c : CachingEngine)
    (hused : ∀ table key, .get 0 table key ∈ calls → used table key)
    (hcoherent : ∀ before, before <+: calls → Coherent used (c.after before)) :
    c.replies calls = c.inner.replies calls := by
  induction calls generalizing c with
  | nil => rfl
  | cons call calls ih =>
    have hreply : (c.exec call).1 = (c.inner.exec call).1 :=
      (hcoherent [] List.nil_prefix).reply fun table key hcall =>
        hused table key (hcall ▸ List.mem_cons_self)
    have hrest := ih (c.exec call).2
      (fun table key hget => hused table key (List.mem_cons_of_mem _ hget))
      fun before hbefore => hcoherent (call :: before) (List.cons_prefix_cons.2 ⟨rfl, hbefore⟩)
    rw [replies, InMemoryEngine.replies, hreply, hrest, inner_exec]

/-- In a history, every point read of the tables and keys in `used` at every point of it returns what
the wrapped engine returns after the same calls, if and only if no call of the history makes an entry
stale for them. So a history whose calls do so for none of the tables and keys that it reads itself has
the replies of the wrapped engine. -/
theorem transparent_iff (calls : List EngineCall) (used : Bytes → Value → Prop) :
    ((∀ before, before <+: calls → ∀ txn table key, used table key →
        ((new.after before).exec (.get txn table key)).1 =
          ((InMemoryEngine.new.after before).exec (.get txn table key)).1) ↔
      ∀ before call, before ++ [call] <+: calls → ¬ (new.after before).MakesStale used call) ∧
    ((∀ before call, before ++ [call] <+: calls →
        ¬ (new.after before).MakesStale (ReadIn calls) call) →
      new.replies calls = InMemoryEngine.new.replies calls) := by
  have hagree : ∀ before, (∀ txn table key, used table key →
      ((new.after before).exec (.get txn table key)).1 =
        ((InMemoryEngine.new.after before).exec (.get txn table key)).1) ↔
        Coherent used (new.after before) := by
    intro before
    have hinner : InMemoryEngine.new.after before = (new.after before).inner :=
      (inner_after new before).symm
    rw [hinner]
    exact coherent_iff_get.symm
  simp only [hagree]
  refine ⟨⟨fun hall before call hcall => ?_, fun hgood before => coherent_after hgood⟩, fun hgood => ?_⟩
  · have hbefore := hall before ((List.prefix_append before [call]).trans hcall)
    have hafter := hall (before ++ [call]) hcall
    rw [after_concat] at hafter
    exact (coherent_exec_iff hbefore call).1 hafter
  · exact replies_eq new (fun table key hget => hget) fun before => coherent_after hgood

/-- A committed row is read twice. The text "7" has no row, and is printed as the key is. -/
def numberRead : List EngineCall :=
  [.put 1 (ascii "t") (.int64 7) .empty, .commit 1 1, .get 0 (ascii "t") (.int64 7),
    .get 0 (ascii "t") (.int64 7)]

theorem numberRead_replies : new.replies numberRead = InMemoryEngine.new.replies numberRead := by
  refine (transparent_iff numberRead fun _ _ => True).2 fun before call hcall => ?_
  have hread : ∀ table key, ReadIn numberRead table key → table = ascii "t" ∧ key = .int64 7 := by
    intro table key hget
    simpa [ReadIn, numberRead] using hget
  obtain ⟨rest, hrest⟩ := hcall
  rcases before with _ | ⟨put, _ | ⟨commit, _ | ⟨get, _ | ⟨get', before⟩⟩⟩⟩ <;>
    simp only [numberRead, List.nil_append, List.cons_append, List.cons.injEq] at hrest
  · obtain ⟨rfl, -⟩ := hrest
    rintro ⟨table, key, -, hsome, -⟩
    cases hsome
  · obtain ⟨rfl, rfl, -⟩ := hrest
    rintro ⟨table, key, hused, hsome, -⟩
    obtain ⟨rfl, rfl⟩ := hread table key hused
    exact absurd hsome (by decide)
  · obtain ⟨-, -, rfl, -⟩ := hrest
    rintro ⟨-, -, table, key, hused, -, hne⟩
    obtain ⟨rfl, rfl⟩ := hread table key hused
    exact hne rfl
  · obtain ⟨-, -, -, rfl, -⟩ := hrest
    rintro ⟨-, -, table, key, hused, -, hne⟩
    obtain ⟨rfl, rfl⟩ := hread table key hused
    exact hne rfl
  · simp at hrest

/-- A row is read before its transaction commits; the commit does not reach the cache. -/
def staleRead : List EngineCall :=
  [.put 1 (ascii "t") (.boolean true) .empty, .get 0 (ascii "t") (.boolean true), .commit 1 1,
    .get 0 (ascii "t") (.boolean true)]

theorem staleRead_differs : new.replies staleRead ≠ InMemoryEngine.new.replies staleRead := by
  decide +kernel

/-! ## Which calls change a row

Without NaN keys, transaction 0 sees a change only in its own calls and in commits. -/

/-- The tables are ordered, and no committed version is beyond the visible sequence number. -/
structure Placed (s : InMemoryStore) : Prop where
  ordered : ∀ table, OrderedRows (rowsOf s table)
  visible : ∀ table r, ∀ v ∈ chainAt (rowsOf s table) r, v.commitSeq ≤ s.visibleSeq

section

variable {s : InMemoryStore} {table : Bytes} {key : Value} {v : Version} {txn : UInt64}

theorem Placed.new : Placed InMemory.new :=
  ⟨fun _ => ⟨fun _ he => (List.not_mem_nil he).elim, List.Pairwise.nil⟩,
    fun _ _ _ hv => (List.not_mem_nil hv).elim⟩

theorem Placed.pushRow (h : Placed s) (hkey : key.isNaN = false) (hzero : v.commitSeq = 0) :
    Placed (InMemory.pushRow table key v s) := by
  refine ⟨fun t => ?_, fun t r w hw => ?_⟩
  · rw [rowsOf_pushRow]
    split_ifs
    · exact (h.ordered table).push hkey
    · exact h.ordered t
  · rw [rowsOf_pushRow] at hw
    split_ifs at hw
    · rw [chainAt_push (h.ordered table) hkey] at hw
      split_ifs at hw
      · rcases List.mem_append.1 hw with hw | hw
        · exact h.visible table r w hw
        · rw [List.mem_singleton.1 hw, hzero]
          exact UInt64.zero_le
      · exact h.visible table r w hw
    · exact h.visible t r w hw

theorem Placed.put (h : Placed s) (hkey : key.isNaN = false) (row : Tuple) :
    Placed (InMemory.put txn table key row s) := by
  rw [InMemory.put]
  split_ifs
  · exact Placed.pushRow ⟨h.ordered, h.visible⟩ rfl rfl
  · exact h.pushRow hkey rfl

theorem Placed.commit (h : Placed s) (seq : UInt64) : Placed (InMemory.commit txn seq s) := by
  refine ⟨fun t => ?_, fun t r w hw => ?_⟩
  · rw [rowsOf_commit]
    exact (h.ordered t).stamp txn seq
  · rw [rowsOf_commit, chainAt_stampRows] at hw
    obtain ⟨v, hv, rfl⟩ := List.mem_map.1 hw
    rcases commitSeq_stamp txn v seq with ⟨-, hcommit⟩ | ⟨-, hsame⟩
    · rw [hcommit]
      exact (le_max_seq s.visibleSeq seq).2
    · rw [hsame]
      exact UInt64.le_trans (h.visible t r v hv) (le_max_seq s.visibleSeq seq).1

theorem Placed.abort (h : Placed s) : Placed (InMemory.abort txn s) := by
  refine ⟨fun t => ?_, fun t r w hw => ?_⟩
  · rw [rowsOf_abort]
    exact (h.ordered t).unstage txn
  · rw [rowsOf_abort, chainAt_unstageRows (h.ordered t)] at hw
    exact h.visible t r w (List.mem_filter.1 hw).1

/-- A call keeps the tables in order as long as its key is not a NaN. -/
theorem Placed.exec {e : InMemoryEngine} {call : EngineCall} (h : Placed e.store)
    (hkey : ∀ key, call.key? = some key → key.isNaN = false) : Placed (e.exec call).2.store := by
  cases call with
  | get txn table key => exact h
  | scan txn table => exact h
  | put txn table key row => exact h.put (hkey key rfl) row
  | remove txn table key => exact h.pushRow (hkey key rfl) rfl
  | commit txn seq => exact h.commit seq
  | commitNext txn => exact h.commit _
  | abort txn => exact h.abort

theorem visibleRow_push_invisible {seq : UInt64} {chain : List Version}
    (h : isVisible seq txn v = false) :
    visibleRow seq txn (chain ++ [v]) = visibleRow seq txn chain := by
  rw [visibleRow, List.reverse_append, List.reverse_singleton, List.singleton_append,
    List.find?_cons_of_neg (by simp [h]), visibleRow]

theorem get_pushRow_other {t : Bytes} {k : Value} (h : Placed s) (hk : k.isNaN = false)
    (hkey : key.isNaN = false) (hzero : v.commitSeq = 0) (hne : v.txnId ≠ 0) :
    get 0 table key (InMemory.pushRow t k v s) = get 0 table key s := by
  have hinvisible : isVisible s.visibleSeq 0 v = false := by
    rw [isVisible, if_pos hzero]
    exact decide_eq_false hne
  have hpush : Placed (InMemory.pushRow t k v s) := h.pushRow hk hzero
  rw [get_eq (hpush.ordered table) hkey, get_eq (h.ordered table) hkey, rowsOf_pushRow]
  have hseq : (InMemory.pushRow t k v s).visibleSeq = s.visibleSeq := rfl
  rw [hseq]
  split_ifs with ht
  · rw [chainAt_push (h.ordered t) hk, ht]
    split_ifs
    · exact visibleRow_push_invisible hinvisible
    · rfl
  · rfl

theorem get_abort_other (h : Placed s) (hkey : key.isNaN = false) (hne : txn ≠ 0) :
    get 0 table key (InMemory.abort txn s) = get 0 table key s := by
  have hfilter : ∀ chain : List Version,
      (chain.filter fun v => !isStagedBy txn v).reverse.find? (isVisible s.visibleSeq 0) =
        chain.reverse.find? (isVisible s.visibleSeq 0) := by
    intro chain
    rw [← List.filter_reverse, List.find?_filter]
    congr 1
    funext v
    cases hv : isStagedBy txn v with
    | false => simp
    | true =>
      have hstaged : v.txnId = txn ∧ v.commitSeq = 0 := by simpa [isStagedBy] using hv
      simp [isVisible, hstaged.2, hstaged.1, hne]
  rw [get_eq (h.abort.ordered table) hkey, get_eq (h.ordered table) hkey, rowsOf_abort,
    chainAt_unstageRows (h.ordered table), visibleRow, visibleRow]
  dsimp only [InMemory.abort]
  rw [hfilter]

/-- A call of another transaction that is not a commit shows transaction 0 nothing new. -/
theorem shown_exec_of_ne {e : InMemoryEngine} {call : EngineCall} (h : Placed e.store)
    (hplace : ∀ key, call.key? = some key → key.isNaN = false) (hne : call.txn ≠ 0)
    (hcommit : call.isCommit = false) (hkey : key.isNaN = false) :
    shown (e.exec call).2 table key = shown e table key := by
  cases call with
  | get t _ k => rfl
  | scan t _ => rfl
  | put t _ k row =>
    simp only [shown, InMemoryEngine.exec, InMemory.put]
    split_ifs
    · exact get_pushRow_other ⟨h.ordered, h.visible⟩ rfl hkey rfl hne
    · exact get_pushRow_other h (hplace k rfl) hkey rfl hne
  | remove t _ k => exact get_pushRow_other h (hplace k rfl) hkey rfl hne
  | commit t seq => cases hcommit
  | commitNext t => cases hcommit
  | abort t => exact get_abort_other h hkey hne

/-- A commit shows something new only for a key that its transaction has staged a version of. -/
theorem get_commit_of_unstaged (h : Placed s) (hkey : key.isNaN = false) (seq : UInt64)
    (hnone : ∀ v ∈ chainAt (rowsOf s table) key.rank, isStagedBy txn v = false) :
    get 0 table key (InMemory.commit txn seq s) = get 0 table key s := by
  have hchain : (chainAt (rowsOf s table) key.rank).map (stamp txn seq) =
      chainAt (rowsOf s table) key.rank := by
    conv_rhs => rw [← List.map_id (chainAt (rowsOf s table) key.rank)]
    apply List.map_congr_left
    intro v hv
    rw [stamp, hnone v hv]
    rfl
  have hsame : ∀ v ∈ (chainAt (rowsOf s table) key.rank).reverse,
      isVisible (max s.visibleSeq seq) 0 v = isVisible s.visibleSeq 0 v := by
    intro v hv
    have hle := h.visible table key.rank v (List.mem_reverse.1 hv)
    simp only [isVisible, hle, UInt64.le_trans hle (le_max_seq s.visibleSeq seq).1]
  rw [get_eq ((h.commit seq).ordered table) hkey, get_eq (h.ordered table) hkey, rowsOf_commit,
    chainAt_stampRows, hchain, visibleRow, visibleRow]
  dsimp only [InMemory.commit]
  rw [List.find?_congr hsame]

end

theorem placed_after {calls : List EngineCall} {e : InMemoryEngine} (h : Placed e.store)
    (hkeys : ∀ call ∈ calls, ∀ key, call.key? = some key → key.isNaN = false) :
    Placed (e.after calls).store := by
  induction calls generalizing e with
  | nil => exact h
  | cons call calls ih =>
    exact ih (h.exec (hkeys call List.mem_cons_self)) fun x hx => hkeys x (List.mem_cons_of_mem _ hx)

/-- In a history without NaN keys, the row of a key changes for transaction 0 only by a call of its own
or by the commit of a transaction that has staged a version of the key. -/
theorem shown_change_cases {before : List EngineCall} {call : EngineCall}
    (hkeys : ∀ x ∈ before ++ [call], ∀ key, x.key? = some key → key.isNaN = false)
    {table : Bytes} {key : Value} (hkey : key.isNaN = false)
    (hchange : shown ((InMemoryEngine.new.after before).exec call).2 table key ≠
      shown (InMemoryEngine.new.after before) table key) :
    call.txn = 0 ∨ (call.isCommit = true ∧
      ∃ v ∈ chainAt (rowsOf (InMemoryEngine.new.after before).store table) key.rank,
        isStagedBy call.txn v = true) := by
  have hplaced : Placed (InMemoryEngine.new.after before).store :=
    placed_after Placed.new fun x hx => hkeys x (List.mem_append_left _ hx)
  have hcall := hkeys call (List.mem_append_right _ List.mem_cons_self)
  by_contra hnot
  rw [not_or, not_and, not_exists] at hnot
  obtain ⟨hne, hstaged⟩ := hnot
  have hunstaged : call.isCommit = true →
      ∀ v ∈ chainAt (rowsOf (InMemoryEngine.new.after before).store table) key.rank,
        isStagedBy call.txn v = false := by
    intro hcommit v hv
    simpa [hv] using hstaged hcommit v
  cases hcommit : call.isCommit with
  | false => exact hchange (shown_exec_of_ne hplaced hcall hne hcommit hkey)
  | true =>
    cases call with
    | commit txn seq => exact hchange (get_commit_of_unstaged hplaced hkey seq (hunstaged rfl))
    | commitNext txn => exact hchange (get_commit_of_unstaged hplaced hkey _ (hunstaged rfl))
    | _ => cases hcommit

end CachingEngine

end OpenDB
