import OpenDB.Storage.ShardedStorageEngine

/-!
# Sharding is transparent

A sharded engine against one engine with all rows. As long as keys that compare equal are hashed alike
and every put goes where the hash of its key points, each shard has the chains of the keys that belong
to it (`Spread`), with the numbers of the one engine. So the two engines give the same answers to every
history of calls; only the rows of a scan come in another order (`sharding_transparent`).
-/

set_option autoImplicit false

namespace OpenDB

open OpenDB.Library InMemory

/-- The table and the key of a call, if it has one. -/
def EngineCall.tableKey? : EngineCall → Option (Bytes × Value)
  | .get _ table key | .put _ table key _ | .remove _ table key => some (table, key)
  | _ => none

/-- The same answer, the rows of a scan in any order. -/
inductive EngineReply.Agrees : EngineReply → EngineReply → Prop where
  | row (r : Option Tuple) : Agrees (.row r) (.row r)
  | status (e : DbError) : Agrees (.status e) (.status e)
  | rows {rs rs' : List Tuple} (hperm : rs.Perm rs') : Agrees (.rows rs) (.rows rs')

/-- The answers to a history. -/
def InMemoryEngine.answers (e : InMemoryEngine) : List EngineCall → List EngineReply
  | [] => []
  | call :: calls => (e.exec call).1 :: (e.exec call).2.answers calls

namespace ShardedEngine

/-- The answers to a history. -/
def answers (s : ShardedEngine) : List EngineCall → List EngineReply
  | [] => []
  | call :: calls => (s.exec call).1 :: (s.exec call).2.answers calls

/-- Keys are given and are no NaN, keys of a table that compare equal are hashed to one shard, and puts
go where their keys are hashed to. -/
structure HashedAlike (s : ShardedEngine) (calls : List EngineCall) : Prop where
  explicit : ∀ call ∈ calls, call.HasExplicitKey
  alike : ∀ c ∈ calls, ∀ d ∈ calls, ∀ table k l, c.tableKey? = some (table, k) →
    d.tableKey? = some (table, l) → k.rank = l.rank →
      routeByKey s.children.length k = routeByKey s.children.length l
  home : ∀ txn table key row, EngineCall.put txn table key row ∈ calls →
    s.routePut table key row = routeByKey s.children.length key

def withShard (s : ShardedEngine) (i : Nat) (e : InMemoryEngine) : ShardedEngine :=
  { s with children := s.children.set i e }

/-- Every shard has the chains of the keys at home there, and the sequence numbers of the one engine. -/
structure Spread (home : Bytes → Rank → Nat) (s : ShardedEngine) (e : InMemoryEngine) : Prop where
  bound : ∀ t r, home t r < s.children.length
  ordered : ∀ t, OrderedRows (rowsOf e.store t)
  shardOrdered : ∀ (i : Nat) (c : InMemoryEngine), s.children[i]? = some c →
    ∀ t, OrderedRows (rowsOf c.store t)
  visibleSeq : ∀ (i : Nat) (c : InMemoryEngine), s.children[i]? = some c →
    c.store.visibleSeq = e.store.visibleSeq
  internalSeq : ∀ (i : Nat) (c : InMemoryEngine), s.children[i]? = some c →
    c.internalSeq = e.internalSeq
  chains : ∀ (i : Nat) (c : InMemoryEngine), s.children[i]? = some c → ∀ t r,
    chainAt (rowsOf c.store t) r = if home t r = i then chainAt (rowsOf e.store t) r else []

namespace Spread

variable {home : Bytes → Rank → Nat} {s : ShardedEngine} {e : InMemoryEngine}

theorem new {n : Nat} (hbound : ∀ t r, home t r < n) (policies : AssocMap Bytes PartitionPolicy) :
    Spread home { ShardedEngine.new n with policies := policies } .new := by
  have hchild : ∀ {i : Nat} {c : InMemoryEngine}, (ShardedEngine.new n).children[i]? = some c →
      c = InMemoryEngine.new := by
    intro i c hc
    exact List.eq_of_mem_replicate (List.mem_of_getElem? hc)
  have hordered : OrderedRows [] := ⟨fun _ hx => absurd hx List.not_mem_nil, List.Pairwise.nil⟩
  refine ⟨?_, fun _ => hordered, ?_, ?_, ?_, ?_⟩
  · intro t r
    exact lt_of_lt_of_eq (hbound t r) List.length_replicate.symm
  · intro i c hc t
    rw [hchild hc]
    exact hordered
  · intro i c hc
    rw [hchild hc]
  · intro i c hc
    rw [hchild hc]
  · intro i c hc t r
    rw [hchild hc]
    exact (ite_self []).symm

/-- A write goes to the shard where its key is at home. -/
theorem push (h : Spread home s e) {table : Bytes} {key : Value} (hkey : key.isNaN = false)
    (v : Version) {c : InMemoryEngine} (hc : s.children[home table key.rank]? = some c) :
    Spread home (s.withShard (home table key.rank) { c with store := pushRow table key v c.store })
      { e with store := pushRow table key v e.store } := by
  set i := home table key.rank with hi
  have hcases : ∀ {j : Nat} {d : InMemoryEngine},
      (s.children.set i { c with store := pushRow table key v c.store })[j]? = some d →
      (j = i ∧ d = { c with store := pushRow table key v c.store }) ∨
        (j ≠ i ∧ s.children[j]? = some d) := by
    intro j d hd
    rw [List.getElem?_set] at hd
    split_ifs at hd with hij hlt
    · cases hd
      exact Or.inl ⟨hij.symm, rfl⟩
    · exact Or.inr ⟨fun heq => hij heq.symm, hd⟩
  refine ⟨?_, ?_, ?_, ?_, ?_, ?_⟩
  · intro t r
    exact lt_of_lt_of_eq (h.bound t r) List.length_set.symm
  · exact ordered_pushRow h.ordered (fun _ => rfl) hkey
  · intro j d hd
    rcases hcases hd with ⟨-, rfl⟩ | ⟨-, hd⟩
    · exact ordered_pushRow (h.shardOrdered i c hc) (fun _ => rfl) hkey
    · exact h.shardOrdered j d hd
  · intro j d hd
    rcases hcases hd with ⟨-, rfl⟩ | ⟨-, hd⟩
    · exact h.visibleSeq i c hc
    · exact h.visibleSeq j d hd
  · intro j d hd
    rcases hcases hd with ⟨-, rfl⟩ | ⟨-, hd⟩
    · exact h.internalSeq i c hc
    · exact h.internalSeq j d hd
  · intro j d hd t r
    rw [rowsOf_pushRow]
    rcases hcases hd with ⟨rfl, rfl⟩ | ⟨hne, hd⟩
    · rw [rowsOf_pushRow]
      by_cases ht : t = table
      · subst ht
        rw [if_pos rfl, if_pos rfl, chainAt_push (h.shardOrdered _ c hc t) hkey,
          chainAt_push (h.ordered t) hkey, h.chains _ c hc t r]
        by_cases hhome : home t r = home t key.rank
        · rw [if_pos hhome, if_pos hhome]
        · have hr : r ≠ key.rank := fun heq => hhome (congrArg (home t) heq)
          rw [if_neg hhome, if_neg hr, if_neg hhome]
      · rw [if_neg ht, if_neg ht]
        exact h.chains _ c hc t r
    · rw [h.chains j d hd t r]
      split_ifs with hhome ht
      · subst ht
        have hr : r ≠ key.rank := by
          rintro rfl
          exact hne (hhome.symm.trans hi.symm)
        rw [chainAt_push (h.ordered t) hkey, if_neg hr]
      · rfl
      · rfl

/-- A call to all shards. -/
theorem all (h : Spread home s e) {f : InMemoryEngine → InMemoryEngine}
    {g : List Version → List Version} (hnil : g [] = [])
    (hordered : ∀ c : InMemoryEngine, (∀ t, OrderedRows (rowsOf c.store t)) →
      ∀ t, OrderedRows (rowsOf (f c).store t))
    (hchain : ∀ c : InMemoryEngine, (∀ t, OrderedRows (rowsOf c.store t)) →
      c.internalSeq = e.internalSeq →
        ∀ t r, chainAt (rowsOf (f c).store t) r = g (chainAt (rowsOf c.store t) r))
    (hseq : ∀ c : InMemoryEngine, c.store.visibleSeq = e.store.visibleSeq →
      c.internalSeq = e.internalSeq →
        (f c).store.visibleSeq = (f e).store.visibleSeq ∧ (f c).internalSeq = (f e).internalSeq) :
    Spread home { s with children := s.children.map f } (f e) := by
  have hchild : ∀ {i : Nat} {c : InMemoryEngine}, (s.children.map f)[i]? = some c →
      ∃ c₀, s.children[i]? = some c₀ ∧ f c₀ = c := by
    intro i c hc
    rw [List.getElem?_map] at hc
    exact Option.map_eq_some_iff.1 hc
  refine ⟨?_, hordered e h.ordered, ?_, ?_, ?_, ?_⟩
  · intro t r
    rw [List.length_map]
    exact h.bound t r
  · intro i c hc
    obtain ⟨c₀, hc₀, rfl⟩ := hchild hc
    exact hordered c₀ (h.shardOrdered i c₀ hc₀)
  · intro i c hc
    obtain ⟨c₀, hc₀, rfl⟩ := hchild hc
    exact (hseq c₀ (h.visibleSeq i c₀ hc₀) (h.internalSeq i c₀ hc₀)).1
  · intro i c hc
    obtain ⟨c₀, hc₀, rfl⟩ := hchild hc
    exact (hseq c₀ (h.visibleSeq i c₀ hc₀) (h.internalSeq i c₀ hc₀)).2
  · intro i c hc t r
    obtain ⟨c₀, hc₀, rfl⟩ := hchild hc
    rw [hchain c₀ (h.shardOrdered i c₀ hc₀) (h.internalSeq i c₀ hc₀), hchain e h.ordered rfl,
      h.chains i c₀ hc₀]
    split_ifs
    · rfl
    · exact hnil

theorem commit (h : Spread home s e) (txn seq : UInt64) :
    Spread home { s with children := s.children.map fun c => (c.exec (.commit txn seq)).2 }
      (e.exec (.commit txn seq)).2 := by
  refine h.all (g := List.map (stamp txn seq)) rfl ?_ ?_ ?_
  · intro c hc t
    simp only [InMemoryEngine.exec, rowsOf_commit]
    exact (hc t).stamp _ _
  · intro c _ _ t r
    simp only [InMemoryEngine.exec, rowsOf_commit, chainAt_stampRows]
  · intro c hvisible hinternal
    exact ⟨congrArg (max · seq) hvisible, hinternal⟩

theorem commitNext (h : Spread home s e) (txn : UInt64) :
    Spread home { s with children := s.children.map fun c => (c.exec (.commitNext txn)).2 }
      (e.exec (.commitNext txn)).2 := by
  refine h.all (g := List.map (stamp txn (e.internalSeq + 1))) rfl ?_ ?_ ?_
  · intro c hc t
    simp only [InMemoryEngine.exec, rowsOf_commit]
    exact (hc t).stamp _ _
  · intro c _ hinternal t r
    simp only [InMemoryEngine.exec, rowsOf_commit, chainAt_stampRows, hinternal]
  · intro c hvisible hinternal
    simp only [InMemoryEngine.exec, hinternal]
    exact ⟨congrArg (max · (e.internalSeq + 1)) hvisible, trivial⟩

theorem abort (h : Spread home s e) (txn : UInt64) :
    Spread home { s with children := s.children.map fun c => (c.exec (.abort txn)).2 }
      (e.exec (.abort txn)).2 := by
  refine h.all (g := List.filter fun v => !isStagedBy txn v) rfl ?_ ?_ ?_
  · intro c hc t
    simp only [InMemoryEngine.exec, rowsOf_abort]
    exact (hc t).unstage _
  · intro c hc _ t r
    simp only [InMemoryEngine.exec, rowsOf_abort, chainAt_unstageRows (hc t)]
  · intro c hvisible hinternal
    exact ⟨hvisible, hinternal⟩

/-! ## Reads -/

theorem exists_home (h : Spread home s e) (t : Bytes) (r : Rank) :
    ∃ c, s.children[home t r]? = some c :=
  ⟨_, List.getElem?_eq_getElem (h.bound t r)⟩

/-- A key is shown by the shard where it is at home, and by no other. -/
theorem shows_eq (h : Spread home s e) (txn : UInt64) (table : Bytes) (r : Rank) :
    s.shows txn table r = visibleRow e.store.visibleSeq txn (chainAt (rowsOf e.store table) r) := by
  have hshow : ∀ c ∈ s.children, visibleRow c.store.visibleSeq txn
      (chainAt (rowsOf c.store table) r) = none ∨
      visibleRow c.store.visibleSeq txn (chainAt (rowsOf c.store table) r) =
        visibleRow e.store.visibleSeq txn (chainAt (rowsOf e.store table) r) := by
    intro c hc
    obtain ⟨i, hi⟩ := List.getElem?_of_mem hc
    rw [h.chains i c hi, h.visibleSeq i c hi]
    split_ifs
    · exact Or.inr rfl
    · exact Or.inl rfl
  rw [ShardedEngine.shows]
  cases hfound : s.children.findSome? fun c => visibleRow c.store.visibleSeq txn
      (chainAt (rowsOf c.store table) r) with
  | some row =>
    obtain ⟨c, hc, hrow⟩ := List.exists_of_findSome?_eq_some hfound
    rcases hshow c hc with hnone | hsame
    · rw [hnone] at hrow
      cases hrow
    · rw [← hsame, hrow]
  | none =>
    obtain ⟨c, hc⟩ := h.exists_home table r
    have hnone := List.findSome?_eq_none_iff.1 hfound c (List.mem_of_getElem? hc)
    rw [h.chains _ c hc, if_pos rfl, h.visibleSeq _ c hc] at hnone
    exact hnone.symm

theorem scan_perm (h : Spread home s e) (txn : UInt64) (table : Bytes) :
    (s.children.map fun c => scan txn table c.store).flatten.Perm (scan txn table e.store) := by
  obtain ⟨keys, hsorted, hmem, hscan⟩ := exists_keys_of_scan (h.ordered table) txn
  have hord : ∀ c ∈ s.children, OrderedRows (rowsOf c.store table) := by
    intro c hc
    obtain ⟨i, hi⟩ := List.getElem?_of_mem hc
    exact h.shardOrdered i c hi table
  have hapart : s.children.Pairwise fun c d => ∀ r, chainAt (rowsOf c.store table) r ≠ [] →
      chainAt (rowsOf d.store table) r = [] := by
    rw [List.pairwise_iff_getElem]
    intro i j hi hj hij r hr
    rw [h.chains i _ (List.getElem?_eq_getElem hi)] at hr
    rw [h.chains j _ (List.getElem?_eq_getElem hj)]
    by_cases hhome : home table r = i
    · exact if_neg (by omega)
    · rw [if_neg hhome] at hr
      exact absurd rfl hr
  obtain ⟨keys', hnodup, hmem', hscan'⟩ := exists_keys_of_scans txn hord hapart
  have hkeys : keys'.Perm keys := by
    rw [List.perm_ext_iff_of_nodup hnodup (hsorted.imp fun hlt => hlt.ne)]
    intro r
    rw [hmem, hmem', ← h.shows_eq txn table r]
    rfl
  have hperm := hkeys.map fun r =>
    visibleRow e.store.visibleSeq txn (chainAt (rowsOf e.store table) r)
  rw [← hscan] at hperm
  have hsame : (s.children.map fun c => scan txn table c.store).flatten.map some =
      keys'.map fun r => visibleRow e.store.visibleSeq txn (chainAt (rowsOf e.store table) r) := by
    rw [hscan']
    exact List.map_congr_left fun r _ => h.shows_eq txn table r
  rw [← hsame] at hperm
  exact (List.map_perm_map_iff (Option.some_injective _)).1 hperm

/-! ## Histories -/

/-- A call to the shard where its key is at home. -/
theorem onShard_write (h : Spread home s e) {call : EngineCall} {table : Bytes} {key : Value}
    {v : Version} (hkey : key.isNaN = false)
    (hexec : ∀ c : InMemoryEngine, c.exec call =
      (.status .sentinel, { c with store := pushRow table key v c.store })) :
    (s.onShard (home table key.rank) call).1.Agrees (e.exec call).1 ∧
      Spread home (s.onShard (home table key.rank) call).2 (e.exec call).2 := by
  obtain ⟨c, hc⟩ := h.exists_home table key.rank
  rw [ShardedEngine.onShard, hc]
  dsimp only
  rw [hexec c, hexec e]
  exact ⟨.status _, h.push hkey v hc⟩

/-- One call: the answers agree, and the shards stay spread. -/
theorem exec (h : Spread home s e) {call : EngineCall} (hexplicit : call.HasExplicitKey)
    (hroute : ∀ table key, call.tableKey? = some (table, key) →
      routeByKey s.children.length key = some (home table key.rank))
    (hput : ∀ txn table key row, call = .put txn table key row →
      s.routePut table key row = routeByKey s.children.length key) :
    (s.exec call).1.Agrees (e.exec call).1 ∧ Spread home (s.exec call).2 (e.exec call).2 := by
  cases call with
  | get txn table key =>
    have hkey := (hexplicit key rfl).2
    obtain ⟨c, hc⟩ := h.exists_home table key.rank
    rw [ShardedEngine.exec, hroute table key rfl]
    dsimp only
    rw [ShardedEngine.onShard, hc]
    have hrow : InMemory.get txn table key c.store = InMemory.get txn table key e.store := by
      rw [get_eq (h.shardOrdered _ c hc table) hkey, get_eq (h.ordered table) hkey,
        h.chains _ c hc, if_pos rfl, h.visibleSeq _ c hc]
    have hsame : s.children.set (home table key.rank) c = s.children := by
      obtain ⟨hi, hget⟩ := List.getElem?_eq_some_iff.1 hc
      rw [← hget]
      exact List.set_getElem_self hi
    refine ⟨?_, ?_⟩
    · simp only [InMemoryEngine.exec, hrow]
      exact .row _
    · simp only [InMemoryEngine.exec, hsame]
      exact h
  | put txn table key row =>
    obtain ⟨hnull, hkey⟩ := hexplicit key rfl
    rw [ShardedEngine.exec, hput txn table key row rfl, hroute table key rfl]
    apply h.onShard_write (v := ⟨0, txn, row, false⟩) hkey
    intro c
    simp only [InMemoryEngine.exec, put_explicit hnull]
  | remove txn table key =>
    rw [ShardedEngine.exec, hroute table key rfl]
    exact h.onShard_write (v := ⟨0, txn, .empty, true⟩) (hexplicit key rfl).2 fun _ => rfl
  | scan txn table => exact ⟨.rows (h.scan_perm txn table), h⟩
  | commit txn seq =>
    rw [exec_commit]
    refine ⟨?_, h.commit txn seq⟩
    rw [ShardedEngine.exec, onShards_eq fun _ => rfl]
    exact .status _
  | commitNext txn =>
    rw [exec_commitNext]
    refine ⟨?_, h.commitNext txn⟩
    rw [ShardedEngine.exec, onShards_eq fun _ => rfl]
    exact .status _
  | abort txn => exact ⟨.status _, h.abort txn⟩

end Spread

theorem policies_onShard (s : ShardedEngine) (i : Nat) (call : EngineCall) :
    (s.onShard i call).2.policies = s.policies := by
  rw [onShard]
  cases s.children[i]? <;> rfl

theorem policies_exec (s : ShardedEngine) (call : EngineCall) :
    (s.exec call).2.policies = s.policies := by
  cases call with
  | get txn table key =>
    rw [exec]
    cases routeByKey s.children.length key with
    | none => rfl
    | some i => exact policies_onShard s i _
  | put txn table key row =>
    rw [exec]
    cases s.routePut table key row with
    | none => rfl
    | some i => exact policies_onShard s i _
  | remove txn table key =>
    rw [exec]
    cases routeByKey s.children.length key with
    | none => rfl
    | some i => exact policies_onShard s i _
  | scan | commit | commitNext | abort => rfl

namespace HashedAlike

variable {s : ShardedEngine} {call : EngineCall} {calls : List EngineCall}

theorem tail (h : s.HashedAlike (call :: calls)) : (s.exec call).2.HashedAlike calls := by
  have hlength : (s.exec call).2.children.length = s.children.length := length_step s (.engine call)
  refine ⟨fun c hc => h.explicit c (List.mem_cons_of_mem _ hc), ?_, ?_⟩
  · intro c hc d hd
    rw [hlength]
    exact h.alike c (List.mem_cons_of_mem _ hc) d (List.mem_cons_of_mem _ hd)
  · intro txn table key row hmem
    have hhome := h.home txn table key row (List.mem_cons_of_mem _ hmem)
    rw [routePut, policyFor] at hhome ⊢
    rwa [hlength, policies_exec]

/-- Where the keys of the history are at home. -/
theorem exists_home (h : s.HashedAlike calls) (hpos : 0 < s.children.length) :
    ∃ home : Bytes → Rank → Nat, (∀ t r, home t r < s.children.length) ∧
      ∀ c ∈ calls, ∀ table key, c.tableKey? = some (table, key) →
        routeByKey s.children.length key = some (home table key.rank) := by
  classical
  have hroutes : ∀ key, ∃ i, routeByKey s.children.length key = some i := by
    intro key
    rw [routeByKey]
    split_ifs with hzero
    · omega
    · exact ⟨_, rfl⟩
    · exact ⟨_, rfl⟩
  -- a position of a key that is mentioned has the route of one such key
  have hchoice : ∀ t r, ∃ i, i < s.children.length ∧ ∀ c ∈ calls, ∀ key,
      c.tableKey? = some (t, key) → key.rank = r → routeByKey s.children.length key = some i := by
    intro t r
    by_cases hmentioned : ∃ c ∈ calls, ∃ key, c.tableKey? = some (t, key) ∧ key.rank = r
    · obtain ⟨c, hc, key, hkey, rfl⟩ := hmentioned
      obtain ⟨i, hi⟩ := hroutes key
      refine ⟨i, routeByKey_lt hi, fun d hd l hl hrank => ?_⟩
      rw [h.alike d hd c hc t l key hl hkey hrank, hi]
    · exact ⟨0, hpos, fun c hc key hkey hrank => absurd ⟨c, hc, key, hkey, hrank⟩ hmentioned⟩
  choose home hbound hhome using hchoice
  exact ⟨home, hbound, fun c hc table key hkey => hhome table key.rank c hc key hkey rfl⟩

end HashedAlike

theorem Spread.answers {home : Bytes → Rank → Nat} {s : ShardedEngine} {e : InMemoryEngine}
    {calls : List EngineCall} (h : Spread home s e) (hcalls : s.HashedAlike calls)
    (hroute : ∀ c ∈ calls, ∀ table key, c.tableKey? = some (table, key) →
      routeByKey s.children.length key = some (home table key.rank)) :
    List.Forall₂ EngineReply.Agrees (s.answers calls) (e.answers calls) := by
  induction calls generalizing s e with
  | nil => exact .nil
  | cons call calls ih =>
    obtain ⟨hagrees, hspread⟩ := h.exec (hcalls.explicit call List.mem_cons_self)
      (hroute call List.mem_cons_self)
      fun txn table key row heq => hcalls.home txn table key row (heq ▸ List.mem_cons_self)
    refine .cons hagrees (ih hspread hcalls.tail ?_)
    intro c hc table key hkey
    rw [show (s.exec call).2.children.length = s.children.length from length_step s (.engine call)]
    exact hroute c (List.mem_cons_of_mem _ hc) table key hkey

/-- A sharded engine and one engine with all rows give the same answers to every history in which keys
that compare equal are hashed alike and puts go where their keys are hashed to, up to the order of the
rows of a scan. -/
theorem sharding_transparent {n : Nat} (hn : 0 < n) {policies : AssocMap Bytes PartitionPolicy}
    {calls : List EngineCall}
    (h : HashedAlike { new n with policies := policies } calls) :
    List.Forall₂ EngineReply.Agrees
      (answers { new n with policies := policies } calls) (InMemoryEngine.new.answers calls) := by
  have hlength : (new n).children.length = n := List.length_replicate
  obtain ⟨home, hbound, hroute⟩ := h.exists_home (lt_of_lt_of_eq hn hlength.symm)
  exact (Spread.new (fun t r => lt_of_lt_of_eq (hbound t r) hlength) policies).answers h hroute

/-- Without a policy a put goes where its key is hashed to. -/
theorem routePut_new (n : Nat) (table : Bytes) (key : Value) (row : Tuple) :
    (new n).routePut table key row = routeByKey (new n).children.length key := by
  have hnone : routeByPolicy (new n).children.length ((new n).policyFor table) row = none := by
    have hpolicy : (new n).policyFor table = noPolicy := rfl
    rw [hpolicy, routeByPolicy]
    by_cases hzero : (new n).children.length = 0
    · rw [if_pos hzero]
    · rw [if_neg hzero]
      cases row.maybeGet noPolicy.column with
      | none => rfl
      | some val => rfl
  rw [routePut, hnone, Option.none_or]

/-- Two rows on three shards. -/
def twoRows : List EngineCall :=
  [.put 1 (ascii "t") (.int64 1) (oneColumn (ascii "a") (.int64 1)),
    .put 1 (ascii "t") (.int64 2) (oneColumn (ascii "a") (.int64 2)), .commit 1 1,
    .get 2 (ascii "t") (.int64 2), .scan 2 (ascii "t")]

theorem twoRows_transparent : HashedAlike (new 3) twoRows ∧
    List.Forall₂ EngineReply.Agrees ((new 3).answers twoRows)
      (InMemoryEngine.new.answers twoRows) := by
  have hkeys : ∀ c ∈ twoRows, ∀ p, c.tableKey? = some p →
      p ∈ [(ascii "t", Value.int64 1), (ascii "t", Value.int64 2)] := by
    intro c hc p hp
    have hmem : p ∈ twoRows.filterMap EngineCall.tableKey? := List.mem_filterMap.2 ⟨c, hc, hp⟩
    have heq : twoRows.filterMap EngineCall.tableKey? =
      [(ascii "t", .int64 1), (ascii "t", .int64 2), (ascii "t", .int64 2)] := rfl
    rw [heq] at hmem
    simpa using hmem
  have h : HashedAlike (new 3) twoRows := by
    refine ⟨?_, ?_, fun txn table key row _ => routePut_new 3 table key row⟩
    · intro c hc key hkey
      have hmem : key ∈ twoRows.filterMap EngineCall.key? := List.mem_filterMap.2 ⟨c, hc, hkey⟩
      have hall : ∀ k ∈ twoRows.filterMap EngineCall.key?, k.isNull = false ∧ k.isNaN = false := by
        decide
      exact hall key hmem
    · intro c hc d hd table k l hk hl hrank
      have hall : ∀ p ∈ [(ascii "t", Value.int64 1), (ascii "t", Value.int64 2)],
          ∀ q ∈ [(ascii "t", Value.int64 1), (ascii "t", Value.int64 2)],
          p.2.rank = q.2.rank → p.2 = q.2 := by
        decide +kernel
      rw [show k = l from hall _ (hkeys c hc _ hk) _ (hkeys d hd _ hl) hrank]
  have hpos : 0 < 3 := by decide
  exact ⟨h, sharding_transparent hpos h⟩

end ShardedEngine

end OpenDB
